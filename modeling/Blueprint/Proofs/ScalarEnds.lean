import Blueprint.Proofs.ScalarReading

/-!
Where the readers of unquoted scalars stop, and why. A plain scalar ends before a comment, a colon, a
line that is indented less, or the end of the document; the content of a block scalar ends with a line
break or with the document. No reader goes beyond the end of the text.
-/

namespace Blueprint.Yaml

/-! Readers within a text. -/

section Within

variable {text : List Char} {n m : Nat} {c : Cursor}

theorem isEnd_charAt_of_le (h : text.length ≤ n) : isEnd (charAt text n) = true := by
  by_contra hend
  exact absurd (lt_length_of_charAt (Bool.of_not_eq_true hend)) (Nat.not_lt.mpr h)

theorem isEnd_of_inGap {x : Char} (h : inGap .document x = true) : isEnd x = false := by
  by_contra hend
  rw [beq_iff_eq.mp (Bool.of_not_eq_false hend)] at h
  cases h

/-- A reader that passes over no NUL stays within the text. -/
theorem placeAt_passes_within {p : Char → Bool} (hp : p '\x00' = false) (hn : n ≤ text.length)
    (h : (placeAt text n).Passes .document p c) :
    ∃ m, n ≤ m ∧ m ≤ text.length ∧ c = placeAt text m ∧
      ∀ i, n ≤ i → i < m → p (charAt text i) = true := by
  obtain ⟨m, hle, rfl, hpassed⟩ := placeAt_passes h
  refine ⟨m, hle, ?_, rfl, hpassed⟩
  rcases Nat.eq_or_lt_of_le hle with rfl | hlt
  · exact hn
  · by_contra hbeyond
    have hlast := hpassed (m - 1) (by omega) (by omega)
    have hend := @isEnd_charAt_of_le text (m - 1) (by omega)
    rw [beq_iff_eq.mp hend, hp] at hlast
    cases hlast

theorem placeAt_skipBreak_within (hn : n ≤ text.length) :
    ∃ m, (placeAt text n).skipBreak .document = placeAt text m ∧ n ≤ m ∧ m ≤ text.length ∧
      (Dialect.document.isBreak (charAt text n) = true → n < m) ∧
      (Dialect.document.isBreak (charAt text n) = false → m = n) ∧
      ∀ i, n ≤ i → i < m → Dialect.document.isBreak (charAt text i) = true := by
  obtain ⟨m, heq, hle, hmoves, hbreaks, -⟩ := @placeAt_skipBreak text n
  refine ⟨m, heq, hle, ?_, hmoves, fun hnone => ?_, hbreaks⟩
  · rcases Nat.eq_or_lt_of_le hle with rfl | hlt
    · exact hn
    · have hlast := hbreaks (m - 1) (by omega) (by omega)
      have := lt_length_of_charAt (isEnd_of_isBreak hlast)
      omega
  · by_contra hne
    have hfirst := hbreaks n le_rfl (Nat.lt_of_le_of_ne hle (Ne.symm hne))
    rw [hnone] at hfirst
    cases hfirst

theorem placeAt_endsLine_within (hn : n ≤ text.length)
    (h : (placeAt text n).EndsLine .document c) : ∃ m, m ≤ text.length ∧ c = placeAt text m := by
  obtain ⟨e, he, -, rfl⟩ := h
  obtain ⟨k, -, hk, rfl, -⟩ := placeAt_passes_within rfl hn he
  obtain ⟨m, heq, -, hm, -⟩ := placeAt_skipBreak_within hk
  exact ⟨m, hm, heq⟩

theorem quotedStop_le (single : Bool) (i : Nat) (s : List Char) :
    quotedStop single i s ≤ i + s.length := by
  cases single with
  | true =>
    show Lexeme.singleQuotedStop i s ≤ i + s.length
    fun_induction Lexeme.singleQuotedStop i s <;> simp only [List.length_cons, List.length_nil] <;>
      omega
  | false =>
    show Lexeme.doubleQuotedStop i s ≤ i + s.length
    fun_induction Lexeme.doubleQuotedStop i s <;> simp only [List.length_cons, List.length_nil] <;>
      omega

end Within

/-! Plain scalars. -/

section Plain

variable {text : List Char} {n : Nat} {flow : Bool} {start : Mark} {c : Cursor}

/-- A word of a plain scalar goes up to white space or to what ends the scalar. -/
theorem plainWord_stops {word word' : List Char} (hn : n ≤ text.length)
    (h : plainWord .document flow start word (placeAt text n).rest (placeAt text n).mark =
      .ok (word', c)) :
    ∃ m, n ≤ m ∧ m ≤ text.length ∧ c = placeAt text m ∧
      (Dialect.document.isGap (charAt text m) = true ∨
        endsPlain .document flow (charAt text m) (charAt text (m + 1)) = true) ∧
      word' = ((text.drop n).take (m - n)).reverse ++ word ∧
      ∀ i, n ≤ i → i < m → Dialect.document.isGap (charAt text i) = false := by
  have hstay {word : List Char} : word = ((text.drop n).take (n - n)).reverse ++ word := by
    rw [Nat.sub_self, List.take_zero, List.reverse_nil, List.nil_append]
  induction hleft : text.length - n generalizing n word with
  | zero =>
    have hend : isEnd (charAt text n) = true := isEnd_charAt_of_le (by omega)
    have hrest : (placeAt text n).rest = [] := by
      rw [placeAt_rest, List.drop_eq_nil_iff]
      omega
    have hplace : (⟨[], (placeAt text n).mark⟩ : Cursor) = placeAt text n := by rw [← hrest]
    rw [hrest, plainWord] at h
    cases h
    exact ⟨n, le_rfl, hn, hplace, Or.inl (by rw [Dialect.isGap, Dialect.isBreakOrEnd, hend]; simp),
      hstay, fun i hi hin => absurd hin (Nat.not_lt.mpr hi)⟩
  | succ left ih =>
    have hlt : n < text.length := by omega
    have hdrop : text.drop n = charAt text n :: text.drop (n + 1) := by
      rw [charAt, List.getD_eq_getElem?_getD, List.getElem?_eq_getElem hlt]
      exact List.drop_eq_getElem_cons hlt
    have hnext : (text.drop (n + 1)).headD '\x00' = charAt text (n + 1) := by
      rw [charAt, List.getD_eq_getElem?_getD, List.headD_eq_head?_getD, List.head?_drop]
    have hplace : (⟨charAt text n :: text.drop (n + 1), (placeAt text n).mark⟩ : Cursor) =
        placeAt text n := by rw [← hdrop, ← placeAt_rest]
    have hnone : ∀ i, n ≤ i → i < n → Dialect.document.isGap (charAt text i) = false :=
      fun i hi hin => absurd hin (Nat.not_lt.mpr hi)
    rw [placeAt_rest, hdrop, plainWord, hnext, hplace] at h
    split at h
    next hgap =>
      cases h
      exact ⟨n, le_rfl, hn, rfl, Or.inl hgap, hstay, hnone⟩
    next hgap =>
      have hgap := Bool.of_not_eq_true hgap
      split at h
      · cases h
      · split at h
        next hends =>
          cases h
          exact ⟨n, le_rfl, hn, rfl, Or.inr hends, hstay, hnone⟩
        · have hmark : Dialect.document.past (charAt text n) (text.drop (n + 1))
              (placeAt text n).mark = (placeAt text (n + 1)).mark :=
            congrArg Cursor.mark (placeAt_past (isEnd_of_not_isGap hgap))
          rw [hmark, ← placeAt_rest] at h
          obtain ⟨m, hle, hm, hc, hends, hword, hsolid⟩ :=
            ih hlt h (by rw [Nat.sub_self]; simp) (by omega)
          refine ⟨m, (Nat.le_succ n).trans hle, hm, hc, hends, ?_, fun i hi him => ?_⟩
          · obtain ⟨k, rfl⟩ := Nat.exists_eq_add_of_le' hle
            rw [hword, show k + (n + 1) - n = k + 1 by omega, Nat.add_sub_cancel, hdrop,
              List.take_succ_cons, List.reverse_cons, List.append_assoc]
            rfl
          · rcases Nat.eq_or_lt_of_le hi with rfl | hi
            · exact hgap
            · exact hsolid i hi him

/-- Places at which no key starts that would open a block inside one at the given indentation. -/
inductive KeyFree (text : List Char) (indent : Int) (m : Nat) : Prop
  | finish (h : isEnd (charAt text m) = true)
  | indicator (h : (placeAt text m).atIndicator .document = true)
  | colon (hcolon : charAt text m = ':')
    (hgap : Dialect.document.isGap (charAt text (m + 1)) = true)
  | shallow (hgap : inGap .document (charAt text m) = false) (hhash : charAt text m ≠ '#')
    (hcolumn : ((placeAt text m).mark.column : Int) ≤ indent)

/-- A `#` behind white space. -/
def CommentAt (text : List Char) (i : Nat) : Prop :=
  charAt text i = '#' ∧ 0 < i ∧ inGap .document (charAt text (i - 1)) = true

theorem plainFrom_stops {indent : Int} {fuel : Nat} {acc : List Char} {gap : Gap} {r : ScalarRead}
    (hn : n ≤ text.length) (hfuel : text.length - n < fuel)
    (hhash : charAt text n = '#' → CommentAt text n)
    (h : plainFrom .document flow (indent + 1) start fuel acc gap (placeAt text n) = .ok r) :
    ∃ m, n ≤ m ∧ m ≤ text.length ∧ r.stop = placeAt text m ∧
      (flow = false → CommentAt text m ∨ KeyFree text indent m) := by
  induction fuel generalizing n acc gap with
  | zero => exact absurd hfuel (Nat.not_lt_zero _)
  | succ fuel ih =>
    rw [plainFrom, placeAt_first] at h
    split at h
    next hstop =>
      cases h
      refine ⟨n, le_rfl, hn, rfl, fun _ => ?_⟩
      rcases Bool.or_eq_true_iff.mp hstop with hindicator | hcomment
      · exact Or.inr (.indicator hindicator)
      · exact Or.inl (hhash (beq_iff_eq.mp hcomment))
    · obtain ⟨⟨word, next⟩, hword, h⟩ := bind_eq_ok.mp h
      obtain ⟨m, hnm, hm, rfl, hends, -⟩ := plainWord_stops hn hword
      dsimp only at h
      rw [placeAt_first] at h
      split at h
      next hsolid =>
        cases h
        refine ⟨m, hnm, hm, rfl, fun hflow => ?_⟩
        have hsolid : inGap .document (charAt text m) = false := by
          rwa [Bool.not_eq_true'] at hsolid
        rcases hends with hgap | hends
        · cases hend : isEnd (charAt text m) with
          | true => exact Or.inr (.finish hend)
          | false => exact absurd (inGap_of_isGap hgap hend) (by rw [hsolid]; decide)
        · subst hflow
          simp only [endsPlain, Bool.false_and, Bool.or_false, Bool.and_eq_true, beq_iff_eq] at hends
          exact Or.inr (.colon hends.1 hends.2)
      next hgap =>
        have hgap : inGap .document (charAt text m) = true := by
          rwa [Bool.not_eq_true, Bool.not_eq_false'] at hgap
        obtain ⟨⟨gap', after⟩, hread, h⟩ := bind_eq_ok.mp h
        obtain ⟨hpasses, hstops⟩ := gap_read_passes hread
        obtain ⟨k, hmk, hk, rfl, hpassed⟩ := placeAt_passes_within rfl hm hpasses
        rw [placeAt_first] at hstops
        have hlt : m < k := by
          refine Nat.lt_of_le_of_ne hmk ?_
          rintro rfl
          rw [hgap] at hstops
          cases hstops
        have hlast := hpassed (k - 1) (by omega) (by omega)
        dsimp only at h
        split at h
        next hshallow =>
          cases h
          refine ⟨k, hnm.trans hmk, hk, rfl, fun _ => ?_⟩
          have hcolumn := of_decide_eq_true (Bool.and_eq_true_iff.mp hshallow).2
          by_cases hcomment : charAt text k = '#'
          · exact Or.inl ⟨hcomment, by omega, hlast⟩
          · exact Or.inr (.shallow hstops hcomment (Int.le_of_lt_add_one hcolumn))
        · obtain ⟨e, hke, he⟩ := ih hk (by omega) (fun hcomment => ⟨hcomment, by omega, hlast⟩) h
          exact ⟨e, hnm.trans (hmk.trans hke), he⟩

/-- Outside flow collections a plain scalar stops at a comment, or where no key starts that would open
a block inside the one around the scalar. -/
theorem readPlain_stops {indent : Int} {r : ScalarRead} (hn : n ≤ text.length)
    (hhash : charAt text n ≠ '#')
    (h : readPlain .document flow (indent + 1) (placeAt text n) = .ok r) :
    ∃ m, n ≤ m ∧ m ≤ text.length ∧ r.stop = placeAt text m ∧
      (flow = false → CommentAt text m ∨ KeyFree text indent m) :=
  plainFrom_stops hn (by rw [placeAt_rest, List.length_drop]; omega) (fun heq => absurd heq hhash) h

end Plain

/-! Block scalars. -/

section Block

variable {text : List Char} {n : Nat} {c : Cursor}

theorem indentation_passes (indent : Nat) (s : List Char) (m : Mark) :
    (⟨s, m⟩ : Cursor).Passes .document (inGap .document)
      (readLead.indentation .document indent s m) := by
  induction s generalizing m with
  | nil => exact .refl _ _ _
  | cons x r ih =>
    rw [readLead.indentation]
    split
    next hspace =>
      refine .of_past ?_ (ih _)
      rw [beq_iff_eq.mp (Bool.and_eq_true_iff.mp hspace).2]
      rfl
    · exact .refl _ _ _

/-- What is read up to a content line is white space. -/
theorem readLead_stops {indent fuel : Nat} {lead lead' : BlockLead} (hn : n ≤ text.length)
    (hplace : lead.stop = placeAt text n) (h : readLead .document indent fuel lead = .ok lead') :
    ∃ m, n ≤ m ∧ m ≤ text.length ∧ lead'.stop = placeAt text m ∧
      ∀ i, n ≤ i → i < m → inGap .document (charAt text i) = true := by
  induction fuel generalizing n lead with
  | zero =>
    cases h
    exact ⟨n, le_rfl, hn, hplace, fun i hi hin => absurd hin (Nat.not_lt.mpr hi)⟩
  | succ fuel ih =>
    have hpasses := indentation_passes indent lead.stop.rest lead.stop.mark
    rw [hplace] at hpasses
    obtain ⟨k, hnk, hk, hcontent, hspaces⟩ := placeAt_passes_within rfl hn hpasses
    rw [readLead, hplace, hcontent] at h
    split at h
    · cases h
    · split at h
      · obtain ⟨j, hj, hkj, hjlength, -, -, hbreaks⟩ := placeAt_skipBreak_within hk
        obtain ⟨m, hjm, hm, hstop, hpassed⟩ := ih hjlength hj h
        refine ⟨m, hnk.trans (hkj.trans hjm), hm, hstop, fun i hi him => ?_⟩
        rcases Nat.lt_or_ge i k with hik | hki
        · exact hspaces i hi hik
        · rcases Nat.lt_or_ge i j with hij | hji
          · rw [inGap, hbreaks i hki hij, Bool.or_true]
          · exact hpassed i hji him
      · cases h
        exact ⟨k, hnk, hk, rfl, hspaces⟩

/-- The content lines of a block scalar: none, or some with a line break at the end of the first one,
or the last one of the document. -/
theorem blockLines_stops {literal : Bool} {indent fuel : Nat} {b b' : BlockText}
    (hn : n ≤ text.length)
    (h : blockLines .document literal indent fuel b (placeAt text n) = .ok (b', c)) :
    ∃ m, n ≤ m ∧ m ≤ text.length ∧ c = placeAt text m ∧
      (isEnd (charAt text m) = true ∨ m = n ∨ (isEnd (charAt text n) = false ∧
        ∃ i, n ≤ i ∧ i < m ∧ Dialect.document.isBreak (charAt text i) = true)) ∧
      (isEnd (charAt text m) = true ∨ m = n ∨ inGap .document (charAt text (m - 1)) = true) := by
  induction fuel generalizing n b with
  | zero =>
    cases h
    exact ⟨n, le_rfl, hn, rfl, Or.inr (Or.inl rfl), Or.inr (Or.inl rfl)⟩
  | succ fuel ih =>
    rw [blockLines] at h
    split at h
    next hline =>
      have hopen : isEnd (charAt text n) = false := by
        rw [placeAt_first, Bool.and_eq_true, Bool.not_eq_true'] at hline
        exact hline.2
      have hpasses := takeWhile_passes .document (q := fun x => !Dialect.document.isBreakOrEnd x)
        (fun _ h => h) (placeAt text n)
      have hfirst := takeFrom_first (d := .document)
        (p := fun x => !Dialect.document.isBreakOrEnd x) rfl (placeAt text n).rest
        (placeAt text n).mark
      obtain ⟨k, hnk, hk, hstop, -⟩ := placeAt_passes_within rfl hn hpasses
      have hline : Dialect.document.isBreakOrEnd (charAt text k) = true := by
        rw [show Cursor.takeFrom .document _ (placeAt text n).rest (placeAt text n).mark =
          (placeAt text n).takeWhile .document _ from rfl, hstop, placeAt_first] at hfirst
        simpa using hfirst
      dsimp only at h
      rw [hstop, placeAt_first] at h
      split at h
      next hend =>
        cases h
        exact ⟨k, hnk, hk, rfl, Or.inl hend, Or.inl hend⟩
      next hend =>
        have hbreak : Dialect.document.isBreak (charAt text k) = true :=
          (Bool.or_eq_true_iff.mp hline).resolve_right hend
        obtain ⟨lead, hlead, h⟩ := bind_eq_ok.mp h
        obtain ⟨j, hj, -, hjlength, hmoves, -, hbreaks⟩ := placeAt_skipBreak_within hk
        obtain ⟨e, hje, he, hestop, hpassed⟩ := readLead_stops hjlength hj hlead
        rw [hestop] at h
        obtain ⟨m, hem, hm, hmstop, -, hlast⟩ := ih he h
        have hkj := hmoves hbreak
        refine ⟨m, by omega, hm, hmstop, Or.inr (Or.inr ⟨hopen, k, hnk, by omega, hbreak⟩),
          hlast.imp_right fun hlast => Or.inr ?_⟩
        rcases hlast with rfl | hlast
        · rcases Nat.lt_or_ge (m - 1) j with hbefore | hbehind
          · rw [inGap, hbreaks (m - 1) (by omega) hbefore, Bool.or_true]
          · exact hpassed (m - 1) hbehind (by omega)
        · exact hlast
    · cases h
      exact ⟨n, le_rfl, hn, rfl, Or.inr (Or.inl rfl), Or.inr (Or.inl rfl)⟩

/-- What a header and a comment behind it pass over is not the end of the document. -/
def inText (x : Char) : Bool :=
  !isEnd x

theorem headerDigit_passes {start : Mark} {increment : Nat} {b : Cursor}
    (h : (if b.first.isDigit then
        if b.first == '0' then fail .blockScalarIndent start
        else .ok (hexValue b.first, b.advance .document)
      else .ok (0, b)) = Except.ok (increment, c)) : b.Passes .document inText c := by
  split at h
  next hdigit =>
    split at h
    · cases h
    · cases h
      refine Cursor.passes_advance .document ?_
      rw [inText, Bool.not_eq_true']
      by_contra hend
      rw [beq_iff_eq.mp (Bool.of_not_eq_false hend)] at hdigit
      cases hdigit
  · cases h
    exact .refl _ _ _

theorem readHeader_passes {start : Mark} {chomp : Chomp} {increment : Nat} {b : Cursor}
    (h : readHeader .document start b = .ok (chomp, increment, c)) :
    b.Passes .document inText c := by
  have hchomp {x : Char} {chomp : Chomp}
      (h : (if x == '+' then some Chomp.keep else if x == '-' then some .strip else none) =
        some chomp) : inText x = true := by
    split at h
    next hx => rw [beq_iff_eq.mp hx]; rfl
    · split at h
      next hx => rw [beq_iff_eq.mp hx]; rfl
      · cases h
  unfold readHeader at h
  dsimp only at h
  split at h
  next hfirst =>
    obtain ⟨⟨x, next⟩, hdigit, h⟩ := bind_eq_ok.mp h
    cases h
    exact (Cursor.passes_advance .document (hchomp hfirst)).trans (headerDigit_passes hdigit)
  · obtain ⟨⟨x, next⟩, hdigit, h⟩ := bind_eq_ok.mp h
    have toNext := headerDigit_passes hdigit
    dsimp only at h
    split at h
    next hfirst =>
      cases h
      split at hfirst
      · cases hfirst
      · exact toNext.trans (Cursor.passes_advance .document (hchomp hfirst))
    · cases h
      exact toNext

/-- A block scalar ends with the document, or its content stands behind white space and is empty or
ends with a line break. What follows it stands behind white space. -/
theorem readBlock_stops {literal : Bool} {parent : Int} {r : ScalarRead}
    (hend : isEnd (charAt text n) = false)
    (h : readBlock .document literal parent (placeAt text n) = .ok r) :
    ∃ k m, n < k ∧ k ≤ m ∧ m ≤ text.length ∧ r.start = (placeAt text k).mark ∧
      r.stop = placeAt text m ∧
      (isEnd (charAt text m) = true ∨
        (inGap .document (charAt text (k - 1)) = true ∧
          (m = k ∨ ∃ i, k ≤ i ∧ i < m ∧ Dialect.document.isBreak (charAt text i) = true))) ∧
      (isEnd (charAt text m) = true ∨ inGap .document (charAt text (m - 1)) = true) := by
  have hlt := lt_length_of_charAt hend
  unfold readBlock at h
  dsimp only at h
  rw [placeAt_advance] at h
  obtain ⟨⟨chomp, increment, afterHeader⟩, hheader, h⟩ := bind_eq_ok.mp h
  have toComment : (placeAt text (n + 1)).Passes .document inText
      ((afterHeader.skipWhile .document isSpace).skipComment .document) := by
    have hline {x : Char} (hx : inYamlLine .document x = true) : inText x = true := by
      rw [inYamlLine, Dialect.isBreakOrEnd, Bool.not_or] at hx
      exact (Bool.and_eq_true_iff.mp hx).2
    refine (readHeader_passes hheader).trans (.imp ?_ fun _ => hline)
    exact (skipSpaces_passes .document afterHeader).trans (skipComment_passes .document _)
  obtain ⟨j, hnj, hj, hcomment, -⟩ := placeAt_passes_within rfl (Nat.succ_le_of_lt hlt) toComment
  dsimp only at h
  rw [hcomment, placeAt_first] at h
  split at h
  · obtain ⟨_, hfail, _⟩ := bind_eq_ok.mp h
    cases hfail
  next hline =>
    have hline : Dialect.document.isBreakOrEnd (charAt text j) = true := by simpa using hline
    obtain ⟨lead, hlead, h⟩ := bind_eq_ok.mp h
    obtain ⟨⟨content, stop⟩, hlines, h⟩ := bind_eq_ok.mp h
    cases h
    obtain ⟨e, he, hje, helength, hmoves, hstays, hbreaks⟩ := placeAt_skipBreak_within hj
    obtain ⟨k, hek, hk, hkstop, hpassed⟩ := readLead_stops helength he hlead
    rw [hkstop] at hlines
    obtain ⟨m, hkm, hm, hmstop, hcontent, hlast⟩ := blockLines_stops hk hlines
    refine ⟨k, m, by omega, hkm, hm, congrArg Cursor.mark hkstop, hmstop, ?_⟩
    cases hbreak : Dialect.document.isBreak (charAt text j) with
    | true =>
      have hje := hmoves hbreak
      have hbehindGap : inGap .document (charAt text (k - 1)) = true := by
        rcases Nat.lt_or_ge (k - 1) e with hbefore | hbehind
        · rw [inGap, hbreaks (k - 1) (by omega) hbefore, Bool.or_true]
        · exact hpassed (k - 1) hbehind (by omega)
      refine ⟨hcontent.imp_right fun hcontent => ⟨hbehindGap, hcontent.imp_right And.right⟩,
        hlast.imp_right fun hlast => ?_⟩
      rcases hlast with rfl | hlast
      · exact hbehindGap
      · exact hlast
    | false =>
      obtain rfl := hstays hbreak
      have hended : isEnd (charAt text e) = true := by
        rwa [Dialect.isBreakOrEnd, hbreak, Bool.false_or] at hline
      have hempty : k = e := by
        by_contra hne
        have hgap := hpassed e le_rfl (by omega)
        rw [beq_iff_eq.mp hended] at hgap
        cases hgap
      subst hempty
      have hfinish : isEnd (charAt text m) = true := by
        rcases hcontent with hcontent | rfl | ⟨hopen, -⟩
        · exact hcontent
        · exact hended
        · rw [hended] at hopen
          cases hopen
      exact ⟨Or.inl hfinish, Or.inl hfinish⟩

end Block

end Blueprint.Yaml
