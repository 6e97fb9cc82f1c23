import Blueprint.Proofs.ScalarEnds

/-!
The text of a plain scalar: where a word of it ends, that no comment starts in it, and what its value
has to do with it.
-/

namespace Blueprint.Yaml

/-! White space inside plain scalars. -/

namespace Gap

/-- A gap that stands for white space. -/
structure IsWhite (g : Gap) : Prop where
  spaces : ∀ x ∈ g.spaces, inGap .document x = true
  first : ∀ x ∈ g.firstBreak, x = '\n'
  more : ∀ x ∈ g.moreBreaks, x = '\n'
  broken : g.broken = true → g.firstBreak.isSome = true

theorem none_isWhite : Gap.none.IsWhite :=
  ⟨nofun, nofun, nofun, nofun⟩

variable {g g' : Gap} {c : Char}

theorem IsWhite.addSpace (h : g.IsWhite) (hc : isSpace c = true) : (g.addSpace c).IsWhite := by
  unfold Gap.addSpace
  split
  · exact h
  · refine { h with spaces := fun x hx => ?_ }
    rcases List.mem_append.mp hx with hx | hx
    · exact h.spaces x hx
    · rw [List.mem_singleton.mp hx, inGap, hc, Bool.true_or]

theorem breakText_of_isBreak (hc : Dialect.document.isBreak c = true) :
    Dialect.breakText c = '\n' := by
  simp only [Dialect.isBreak, Bool.or_eq_true, beq_iff_eq] at hc
  rcases hc with (rfl | rfl) | hc
  · rfl
  · rfl
  · cases hc

theorem IsWhite.addBreak (h : g.IsWhite) (hc : Dialect.document.isBreak c = true) :
    (g.addBreak c).IsWhite := by
  unfold Gap.addBreak
  rw [breakText_of_isBreak hc]
  split
  · refine { h with more := fun x hx => ?_ }
    rcases List.mem_append.mp hx with hx | hx
    · exact h.more x hx
    · exact List.mem_singleton.mp hx
  · exact ⟨nofun, fun x hx => (Option.some.inj hx).symm, nofun, fun _ => rfl⟩

theorem IsWhite.folded_eq (h : g.IsWhite) : g.folded =
    if g.broken then if g.moreBreaks.isEmpty then [' '] else g.moreBreaks else g.spaces := by
  unfold Gap.folded
  split
  next hbroken =>
    obtain ⟨c, hfirst⟩ := Option.isSome_iff_exists.mp (h.broken hbroken)
    obtain rfl := h.first c hfirst
    rw [hfirst]
    rfl
  · rfl

theorem IsWhite.folded (h : g.IsWhite) : ∀ x ∈ g.folded, inGap .document x = true := by
  intro x hx
  rw [h.folded_eq] at hx
  split at hx
  · split at hx
    · rw [List.mem_singleton.mp hx]
      rfl
    · rw [h.more x hx]
      rfl
  · exact h.spaces x hx

theorem IsWhite.folded_ne_nil (h : g.IsWhite) :
    g.folded ≠ [] ↔ g.broken = true ∨ g.spaces ≠ [] := by
  rw [h.folded_eq]
  split
  next hbroken =>
    refine iff_of_true ?_ (Or.inl hbroken)
    split
    · exact List.cons_ne_nil _ _
    next hmore => exact fun heq => hmore (List.isEmpty_iff.mpr heq)
  next hbroken => simp [hbroken]

/-- White space that has been read stands for white space, and for some of it if there was any. -/
theorem read_isWhite {start : Mark} {tabStop : Int} {s : List Char} {m : Mark} {b : Cursor}
    (hg : g.IsWhite) (h : Gap.read .document start tabStop g s m = .ok (g', b)) :
    g'.IsWhite ∧ (g.folded ≠ [] ∨ inGap .document (s.headD '\x00') = true → g'.folded ≠ []) := by
  induction s generalizing g m with
  | nil =>
    cases h
    exact ⟨hg, fun hread => hread.resolve_right (by decide)⟩
  | cons x r ih =>
    rw [Gap.read] at h
    split at h
    next hspace =>
      split at h
      · cases h
      · obtain ⟨hwhite, hsome⟩ := ih (hg.addSpace hspace) h
        refine ⟨hwhite, fun _ => hsome (Or.inl ((hg.addSpace hspace).folded_ne_nil.mpr ?_))⟩
        unfold Gap.addSpace
        split
        next hbroken => exact Or.inl hbroken
        · exact Or.inr (List.append_ne_nil_of_right_ne_nil _ (List.cons_ne_nil _ _))
    next hspace =>
      split at h
      next hbreak =>
        split at h
        next hreturn =>
          obtain ⟨hwhite, hsome⟩ := ih hg h
          refine ⟨hwhite, fun _ => hsome (Or.inr ?_)⟩
          have hhead := beq_iff_eq.mp (Bool.and_eq_true_iff.mp hreturn).2
          rw [List.headD_eq_head?_getD, hhead]
          rfl
        · obtain ⟨hwhite, hsome⟩ := ih (hg.addBreak hbreak) h
          refine ⟨hwhite, fun _ => hsome (Or.inl ((hg.addBreak hbreak).folded_ne_nil.mpr ?_))⟩
          unfold Gap.addBreak
          split
          next hbroken => exact Or.inl hbroken
          · exact Or.inl rfl
      next hbreak =>
        cases h
        refine ⟨hg, fun hread => hread.resolve_right ?_⟩
        rw [List.headD_cons, inGap, Bool.of_not_eq_true hspace, Bool.of_not_eq_true hbreak]
        decide

end Gap

/-! Plain scalars. -/

/-- What ends a word of a plain scalar: white space, the end of the text, a colon or an indicator of a
flow collection. -/
def endsWord (x : Char) : Bool :=
  Dialect.document.isGap x || x == ':' || isFlowIndicator x

theorem endsWord_of_endsPlain {flow : Bool} {x y : Char} (h : endsPlain .document flow x y = true) :
    endsWord x = true := by
  unfold endsPlain at h
  unfold endsWord
  rcases Bool.or_eq_true_iff.mp h with h | h
  · rw [(Bool.and_eq_true_iff.mp h).1]
    simp
  · rw [(Bool.and_eq_true_iff.mp h).2]
    simp

/-- The text from `a` on, to just before `b`, is that of a plain scalar. No comment starts in it. A word
ends with it, or white space does. If the scalar holds no white space, it is a part of the text as it
stands. -/
structure PlainAt (text : List Char) (a : Nat) (s : List Char) (b : Nat) : Prop where
  lt : a < b
  bare : ∀ i, a ≤ i → i + 1 < b → inGap .document (charAt text i) = true → charAt text (i + 1) ≠ '#'
  ends : endsWord (charAt text b) = true ∨ inGap .document (charAt text (b - 1)) = true
  word : (∃ x ∈ s, inGap .document x = true) ∨ s = [] ∨
    ∃ e, a < e ∧ e ≤ b ∧ s = (text.drop a).take (e - a) ∧ endsWord (charAt text e) = true

section Plain

variable {text : List Char} {n : Nat} {flow : Bool} {start : Mark}

/-- No comment starts behind white space from `a` on, before `b`. -/
def NoComment (text : List Char) (a b : Nat) : Prop :=
  ∀ i, a ≤ i → i + 1 < b → inGap .document (charAt text i) = true → charAt text (i + 1) ≠ '#'

theorem NoComment.of_le {a b : Nat} (h : b ≤ a + 1) : NoComment text a b :=
  fun _ hi hib => by omega

/-- In a word there is no white space that a comment could stand behind. -/
theorem NoComment.word {a m b : Nat}
    (hsolid : ∀ i, a ≤ i → i < m → Dialect.document.isGap (charAt text i) = false)
    (h : NoComment text m b) : NoComment text a b := by
  intro i hi hib hgap
  rcases Nat.lt_or_ge i m with him | hmi
  · have hgap := isGap_of_inGap hgap
    rw [hsolid i hi him] at hgap
    cases hgap
  · exact h i hmi hib hgap

/-- Behind white space there is a comment only where the scalar ends. -/
theorem NoComment.gap {a k b : Nat}
    (hpassed : ∀ i, a ≤ i → i < k → inGap .document (charAt text i) = true)
    (hcomment : charAt text k = '#' → b = k) (h : NoComment text k b) : NoComment text a b := by
  intro i hi hib hgap
  rcases Nat.lt_or_ge i k with hik | hki
  · intro heq
    rcases Nat.eq_or_lt_of_le (Nat.succ_le_of_lt hik) with rfl | hlt
    · exact Nat.lt_irrefl _ (hcomment heq ▸ hib)
    · have hwhite := hpassed (i + 1) (by omega) hlt
      rw [heq] at hwhite
      cases hwhite
  · exact h i hki hib hgap

/-- What has been read as the text of a plain scalar from `n` on, behind `acc` and white space that is
still to be written: it holds white space, or nothing is added, or it ends with a word. -/
def PlainAdds (text : List Char) (n b : Nat) (acc : List Char) (gap : Gap) (s : List Char) : Prop :=
  (∃ x ∈ s, inGap .document x = true) ∨ s = acc.reverse ∨ (gap.folded = [] ∧
    ∃ e, n < e ∧ e ≤ b ∧ s = acc.reverse ++ (text.drop n).take (e - n) ∧
      endsWord (charAt text e) = true)

/-- A word is written behind the white space before it, and nothing is left to be written then. -/
theorem plainWord_adds {acc word : List Char} {gap : Gap} {m : Nat} (hgap : gap.IsWhite)
    (hnm : n ≤ m) (hletters : word = ((text.drop n).take (m - n)).reverse)
    (hends : endsWord (charAt text m) = true) : ∃ acc' gap',
      (if word.isEmpty then (acc, gap) else (word ++ gap.folded.reverse ++ acc, Gap.none)) =
        (acc', gap') ∧ gap'.IsWhite ∧
      ∀ {b : Nat}, m ≤ b → PlainAdds text n b acc gap acc'.reverse := by
  split
  next hempty => exact ⟨acc, gap, rfl, hgap, fun _ => Or.inr (Or.inl rfl)⟩
  next hempty =>
    have hlt : n < m := by
      refine Nat.lt_of_le_of_ne hnm ?_
      rintro rfl
      rw [hletters, Nat.sub_self] at hempty
      exact hempty rfl
    have hwritten : (word ++ gap.folded.reverse ++ acc).reverse =
        acc.reverse ++ gap.folded ++ (text.drop n).take (m - n) := by
      rw [hletters]
      simp
    refine ⟨_, _, rfl, Gap.none_isWhite, fun hb => ?_⟩
    rw [PlainAdds, hwritten]
    cases hfolded : gap.folded with
    | nil => exact Or.inr (Or.inr ⟨rfl, m, hlt, hb, by rw [List.append_nil], hends⟩)
    | cons x rest =>
      have hx : x ∈ gap.folded := hfolded ▸ List.mem_cons_self
      refine Or.inl ⟨x, ?_, hgap.folded x hx⟩
      exact List.mem_append_left _ (List.mem_append_right _ List.mem_cons_self)

/-- How far a plain scalar has been read that goes on at `n`, and what its text is then. -/
structure PlainUpto (text : List Char) (n : Nat) (acc : List Char) (gap : Gap) (s : List Char)
    (b : Nat) : Prop where
  le : n ≤ b
  comment : charAt text n = '#' → b = n
  ends : b = n ∨ endsWord (charAt text b) = true ∨ inGap .document (charAt text (b - 1)) = true
  bare : NoComment text n b
  adds : PlainAdds text n b acc gap s

theorem PlainUpto.refl (acc : List Char) (gap : Gap) : PlainUpto text n acc gap acc.reverse n where
  le := Nat.le_refl n
  comment _ := rfl
  ends := Or.inl rfl
  bare := .of_le (Nat.le_succ n)
  adds := Or.inr (Or.inl rfl)

theorem plainFrom_written {indent : Int} {fuel : Nat} {acc : List Char} {gap : Gap} {r : ScalarRead}
    (hn : n ≤ text.length) (hgap : gap.IsWhite)
    (h : plainFrom .document flow indent start fuel acc gap (placeAt text n) = .ok r) :
    ∃ b, r.stop = placeAt text b ∧ PlainUpto text n acc gap r.text b := by
  induction fuel generalizing n acc gap with
  | zero =>
    cases h
    exact ⟨n, rfl, .refl acc gap⟩
  | succ fuel ih =>
    rw [plainFrom, placeAt_first] at h
    split at h
    · cases h
      exact ⟨n, rfl, .refl acc gap⟩
    next hstop =>
      have hhash : charAt text n ≠ '#' := fun heq =>
        hstop (Bool.or_eq_true_iff.mpr (Or.inr (beq_iff_eq.mpr heq)))
      obtain ⟨⟨word, next⟩, hword, h⟩ := bind_eq_ok.mp h
      obtain ⟨m, hnm, hm, rfl, hends, hletters, hsolid⟩ := plainWord_stops hn hword
      rw [List.append_nil] at hletters
      dsimp only at h
      rw [placeAt_first] at h
      have hends : endsWord (charAt text m) = true := by
        rcases hends with hends | hends
        · rw [endsWord, hends, Bool.true_or, Bool.true_or]
        · exact endsWord_of_endsPlain hends
      obtain ⟨acc', gap', hacc, hwhite, hadds⟩ :=
        plainWord_adds hgap hnm hletters hends
      rw [hacc] at h
      split at h
      · cases h
        exact ⟨m, rfl, hnm, fun heq => absurd heq hhash, Or.inr (Or.inl hends),
          .word hsolid (.of_le (Nat.le_succ m)), hadds le_rfl⟩
      next hspace =>
        have hspace : inGap .document (charAt text m) = true := by
          rwa [Bool.not_eq_true, Bool.not_eq_false'] at hspace
        obtain ⟨⟨gap'', after⟩, hgapRead, h⟩ := bind_eq_ok.mp h
        obtain ⟨hpasses, -⟩ := gap_read_passes hgapRead
        obtain ⟨k, hmk, hk, rfl, hpassed⟩ := placeAt_passes_within rfl hm hpasses
        have hclosed : endsWord (charAt text k) = true ∨
            inGap .document (charAt text (k - 1)) = true := by
          rcases Nat.eq_or_lt_of_le hmk with rfl | hlt
          · exact Or.inl hends
          · exact Or.inr (hpassed (k - 1) (by omega) (by omega))
        obtain ⟨hwhite', hsome⟩ := Gap.read_isWhite hwhite hgapRead
        have hsome : gap''.folded ≠ [] := by
          refine hsome (Or.inr ?_)
          rw [placeAt_rest, List.headD_eq_head?_getD, List.head?_drop, ← List.getD_eq_getElem?_getD]
          exact hspace
        dsimp only at h
        split at h
        · cases h
          exact ⟨k, rfl, hnm.trans hmk, fun heq => absurd heq hhash, Or.inr hclosed,
            .word hsolid (.gap hpassed (fun _ => rfl) (.of_le (Nat.le_succ k))), hadds hmk⟩
        · obtain ⟨b, hstop, hrest⟩ := ih hk hwhite' h
          have hb : m ≤ b := hmk.trans hrest.le
          refine ⟨b, hstop, hnm.trans hb, fun heq => absurd heq hhash, Or.inr ?_,
            .word hsolid (.gap hpassed hrest.comment hrest.bare), ?_⟩
          · rcases hrest.ends with rfl | hends
            · exact hclosed
            · exact hends
          -- White space has been read, so that the rest is not written right behind this word.
          · rcases hrest.adds with hwhite | hsame | ⟨hnone, -⟩
            · exact Or.inl hwhite
            · exact hsame ▸ hadds hb
            · exact absurd hnone hsome

/-- What is read as a plain scalar. -/
theorem readPlain_written {indent : Int} {r : ScalarRead} (hend : isEnd (charAt text n) = false)
    (hhash : charAt text n ≠ '#') (hind : (placeAt text n).atIndicator .document = false)
    (hends : endsPlain .document flow (charAt text n) (charAt text (n + 1)) = false)
    (h : readPlain .document flow indent (placeAt text n) = .ok r) :
    PlainAt text n r.text r.stop.mark.index := by
  obtain ⟨-, m, hlt, hstop⟩ := readPlain_moves hend hhash hind hends h
  obtain ⟨b, hstop', hread⟩ :=
    plainFrom_written (Nat.le_of_lt (lt_length_of_charAt hend)) Gap.none_isWhite h
  have hmb : m = b := by
    rw [hstop] at hstop'
    rw [← @placeAt_index text m, hstop', placeAt_index]
  subst hmb
  rw [hstop, placeAt_index]
  refine ⟨hlt, hread.bare, hread.ends.resolve_left (Nat.ne_of_gt hlt),
    hread.adds.imp_right fun hword => ?_⟩
  exact hword.imp_right fun ⟨_, e, hne, heb, hs, hends⟩ => ⟨e, hne, heb, hs, hends⟩

end Plain

end Blueprint.Yaml
