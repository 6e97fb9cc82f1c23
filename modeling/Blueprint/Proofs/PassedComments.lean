import Blueprint.Proofs.Readings

/-!
A comment is passed over to the end of its line: the tokens that are read behind it start on later
lines. Only the ends of blocks may stand right behind it, at the end of the text.
-/

namespace Blueprint

/-- The place is at an index or before it, or on a later line. -/
def Mark.Clears (text : List Char) (i : Nat) (m : Mark) : Prop :=
  m.index ≤ i ∨ lineAt text i < m.line

instance (text : List Char) (i : Nat) (m : Mark) : Decidable (m.Clears text i) :=
  inferInstanceAs (Decidable (_ ∨ _))

namespace Yaml

open Scanner (Skips)

/-- The end of the text is placed on a later line. -/
theorem end_clears {text : List Char} {i a : Nat} {m : Mark} (hindex : m.index = a)
    (hline : m.line = lineAt text a + 1 ∨
      (m.line = lineAt text a ∧ (placeAt text a).mark.column = 0)) : m.Clears text i := by
  refine (Nat.lt_or_ge i a).symm.imp (fun hai => hindex.trans_le hai) fun hia => ?_
  rcases hline with hline | ⟨hline, hcolumn⟩
  · rw [hline]
    exact Nat.lt_succ_of_le (lineAt_mono text (Nat.le_of_lt hia))
  · have hfeed := placeAt_column hcolumn (Nat.zero_lt_of_lt hia)
    rw [hline]
    exact (lineAt_mono text (Nat.le_sub_one_of_lt hia)).trans_lt
      (lineAt_lt hfeed (Nat.sub_one_lt_of_lt hia))

/-- A `#` that starts a comment for the readings so far: it stands in no scalar, at the start of a line
or behind white space, on the line of no directive. A line feed ends its line, and if it stands in the
header of a block scalar, the scalar starts on a later line. -/
structure Aside (text : List Char) (rs : List Reading) (i : Nat) : Prop where
  hash : charAt text i = '#'
  behindGap : i = 0 ∨ inGap .document (charAt text (i - 1)) = true
  outside : ∀ r ∈ rs, ¬r.Holds i
  directives : ∀ r ∈ rs, r.token.kind.isDirective → r.token.mark.line ≠ lineAt text i
  headers : ∀ r ∈ rs, r.token.kind.isBlockScalar → r.token.mark.Clears text i
  feeds : ∀ j, lineAt text j = lineAt text i → charAt text j = '\r' → charAt text (j + 1) = '\n'

namespace Aside

variable {text : List Char} {rs extra : List Reading} {i n a b : Nat} {t : Token}

theorem of_append (h : Aside text (rs ++ extra) i) : Aside text rs i where
  hash := h.hash
  behindGap := h.behindGap
  outside r hr := h.outside r (List.mem_append_left _ hr)
  directives r hr := h.directives r (List.mem_append_left _ hr)
  headers r hr := h.headers r (List.mem_append_left _ hr)
  feeds := h.feeds

theorem eq_of_isBreak {c : Char} (h : Dialect.document.isBreak c = true) : c = '\n' ∨ c = '\r' := by
  rcases Bool.or_eq_true_iff.mp h with h | h
  · exact (Bool.or_eq_true_iff.mp h).imp beq_iff_eq.mp beq_iff_eq.mp
  · cases h

/-- Behind the line break that ends a comment there is a later line. -/
theorem line_lt_of_break {m : Nat} (h : Aside text rs i) (him : i < m) (hma : m < a)
    (hbreak : Dialect.document.isBreak (charAt text m) = true)
    (ha : Dialect.document.isBreak (charAt text a) = false) : lineAt text i < lineAt text a := by
  have hmono := lineAt_mono text (Nat.le_of_lt him)
  rcases eq_of_isBreak hbreak with hfeed | hreturn
  · exact hmono.trans_lt (lineAt_lt (getElem?_of_charAt hfeed (by decide)) hma)
  · by_cases hsame : lineAt text m = lineAt text i
    · have hfeed := h.feeds m hsame hreturn
      have hne : m + 1 ≠ a := by
        rintro rfl
        rw [hfeed] at ha
        cases ha
      exact (hmono.trans (lineAt_mono text (Nat.le_succ m))).trans_lt
        (lineAt_lt (getElem?_of_charAt hfeed (by decide)) (Nat.lt_of_le_of_ne hma hne))
    · exact (Nat.lt_of_le_of_ne hmono (Ne.symm hsame)).trans_le
        (lineAt_mono text (Nat.le_of_lt hma))

/-- White space that leads over a comment leads to a later line. -/
theorem past (h : Aside text rs i) (hn : n ≤ i ∨ lineAt text i < lineAt text n)
    (hskips : Skips text n a) (hend : isEnd (charAt text a) = false) :
    a ≤ i ∨ lineAt text i < lineAt text a := by
  rcases hn with hn | hn
  · refine (Nat.lt_or_ge i a).symm.imp_right fun hia => ?_
    obtain ⟨m, him, hma, hline, hends⟩ := hskips.comments hn hia h.hash
    have hopen : isEnd (charAt text m) = false := by
      by_contra hm
      have hm := Bool.of_not_eq_false hm
      rw [hends hm, hm] at hend
      cases hend
    have hbreak : Dialect.document.isBreak (charAt text m) = true := by
      rwa [Dialect.isBreakOrEnd, hopen, Bool.or_false] at hline
    have hlt : m < a := by
      refine Nat.lt_of_le_of_ne hma ?_
      rintro rfl
      rw [hskips.lineBreak] at hbreak
      cases hbreak
    exact h.line_lt_of_break him hlt hbreak hskips.lineBreak
  · exact Or.inr (hn.trans_le (lineAt_mono text hskips.le))

theorem placeAt_clears (h : a ≤ i ∨ lineAt text i < lineAt text a) :
    (placeAt text a).mark.Clears text i := by
  rw [Mark.Clears, placeAt_index, placeAt_line]
  exact h

/-- A token does not hold the start of a comment, unless it is the header of a block scalar. -/
theorem token_clears (h : Aside text (rs ++ [⟨t, b⟩]) i)
    (ha : a ≤ i ∨ lineAt text i < lineAt text a) (hhash : charAt text a ≠ '#')
    (hspells : Spells text a t b) :
    t.mark.Clears text i ∧ (b ≤ i ∨ lineAt text i < lineAt text b) := by
  have hmem : (⟨t, b⟩ : Reading) ∈ rs ++ [⟨t, b⟩] := List.mem_concat_self
  have hbehind {c : Nat} (hc : lineAt text i < lineAt text c) (hcb : c ≤ b) :
      lineAt text i < lineAt text b := hc.trans_le (lineAt_mono text hcb)
  have hstop : lineAt text i < lineAt text a → lineAt text i < lineAt text b :=
    fun ha => hbehind ha (Nat.le_of_lt hspells.lt)
  have hout := h.outside _ hmem
  by_cases hib : i < b
  · cases hspells with
    | plain hlt =>
      refine ⟨placeAt_clears ha, Or.inr (hstop (ha.resolve_left fun hai => hout ⟨rfl, ?_, hib⟩))⟩
      rwa [placeAt_index]
    | @quoted _ single _ hlt _ =>
      refine ⟨placeAt_clears ha, Or.inr (hstop (ha.resolve_left fun hai => hout ⟨rfl, ?_, hib⟩))⟩
      rwa [placeAt_index]
    | @block _ style c _ hstyle hac hcb =>
      have hclears := h.headers _ hmem (by rcases hstyle with rfl | rfl <;> rfl)
      refine ⟨hclears, Or.inr (hbehind ?_ hcb)⟩
      have hline := hclears.resolve_left fun hci => hout ⟨rfl, hci, hib⟩
      rwa [placeAt_line] at hline
    | documentMark _ hmark =>
      refine ⟨placeAt_clears ha, Or.inr (hstop (ha.resolve_left fun hai => ?_))⟩
      obtain ⟨k, rfl⟩ := Nat.exists_eq_add_of_le hai
      exact hmark k (by omega) h.hash
    | word _ _ hword =>
      refine ⟨placeAt_clears ha, Or.inr (hstop (ha.resolve_left fun hai => ?_))⟩
      have hne : a ≠ i := by
        rintro rfl
        exact hhash h.hash
      have hin := hword (i - 1) (by omega) (by omega)
      rcases h.behindGap with hzero | hgap
      · omega
      · rw [inYamlWord, isGap_of_inGap hgap] at hin
        cases hin
    | directive hkind _ hfeed =>
      refine ⟨placeAt_clears ha, Or.inr (hstop (ha.resolve_left fun hai => ?_))⟩
      refine h.directives _ hmem hkind (placeAt_line.trans (lineAt_eq hai ?_))
      intro k hk hki hfound
      exact hfeed k hk (by omega) (charAt_of_getElem? hfound)
  · refine ⟨?_, Or.inl (Nat.le_of_not_lt hib)⟩
    cases hspells with
    | plain _ => exact placeAt_clears ha
    | quoted _ _ => exact placeAt_clears ha
    | block hstyle _ hcb =>
      exact Or.inl (placeAt_index.trans_le (hcb.trans (Nat.le_of_not_lt hib)))
    | documentMark _ _ => exact placeAt_clears ha
    | word _ _ _ => exact placeAt_clears ha
    | directive _ _ _ => exact placeAt_clears ha

end Aside

variable {text : List Char} {rs : List Reading} {ts ts' ends : List Token}
  {ks ks' : List SimpleKey} {n a b : Nat} {m : Mark} {t u : Token}

/-- What is added besides the token itself marks a block or a key. -/
theorem Adds.mem (h : Adds ts ks m t ts' ks') (hu : u ∈ ts') : u ∈ ts ∨ u = t ∨
    ((u.kind = .blockSequenceStart ∨ u.kind = .blockMappingStart ∨ u.kind = .key) ∧
      (u.mark = m ∨ ∃ k ∈ ks, u.mark = k.mark)) := by
  cases h with
  | push _ | save _ _ _ =>
    rcases List.mem_append.mp hu with hu | hu
    · exact Or.inl hu
    · exact Or.inr (Or.inl (List.mem_singleton.mp hu))
  | opens hopening _ =>
    rcases List.mem_append.mp hu with hu | hu
    · exact Or.inl hu
    · rcases List.mem_cons.mp hu with rfl | hu
      · exact Or.inr (Or.inr ⟨hopening.start.imp_right Or.inl, Or.inl rfl⟩)
      · exact Or.inr (Or.inl (List.mem_singleton.mp hu))
  | recognize hk hstarts _ =>
    rcases List.mem_append.mp hu with hu | hu
    · rcases List.mem_append.mp hu with hu | hu
      · exact Or.inl (List.mem_of_mem_take hu)
      · rcases List.mem_append.mp hu with hu | hu
        · rcases hstarts with rfl | rfl
          · cases hu
          · rw [List.mem_singleton.mp hu]
            exact Or.inr (Or.inr ⟨Or.inr (Or.inl rfl), Or.inl rfl⟩)
        · rcases List.mem_cons.mp hu with rfl | hu
          · exact Or.inr (Or.inr ⟨Or.inr (Or.inr rfl),
              Or.inr ⟨_, hk.subset List.mem_cons_self, rfl⟩⟩)
          · exact Or.inl (List.mem_of_mem_drop hu)
    · exact Or.inr (Or.inl (List.mem_singleton.mp hu))

/-- A key that may still be recognized is one from before or starts here. -/
theorem Adds.key {k : SimpleKey} (h : Adds ts ks m t ts' ks') (hk : k ∈ ks') :
    k ∈ ks ∨ k.mark = m := by
  cases h with
  | push hks => exact Or.inl (hks.subset hk)
  | opens _ hks => exact Or.inl (hks.subset hk)
  | save _ hmark hks =>
    rcases List.mem_cons.mp hk with rfl | hk
    · exact Or.inr hmark
    · exact Or.inl (hks.subset hk)
  | recognize hr _ hks => exact Or.inl (hr.subset (List.mem_cons_of_mem _ (hks.subset hk)))

/-- No token and no key stands behind a comment on its line; the scanner is ahead of a comment or on a
later line. -/
structure Cleared (text : List Char) (rs : List Reading) (ts : List Token) (ks : List SimpleKey)
    (n : Nat) : Prop where
  tokens : ∀ i, Aside text rs i → ∀ t ∈ ts, t.kind = .blockEnd ∨ t.mark.Clears text i
  keys : ∀ i, Aside text rs i → ∀ k ∈ ks, k.mark.Clears text i
  here : ∀ i, Aside text rs i → n ≤ i ∨ lineAt text i < lineAt text n

/-- The next token is read on a later line than the comments before it. -/
theorem Cleared.step (h : Cleared text rs ts ks n) (hskips : Skips text n a)
    (hend : isEnd (charAt text a) = false) (hspells : Spells text a t b)
    (hends : ∀ u ∈ ends, u.kind = .blockEnd)
    (hadds : Adds (ts ++ ends) ks (placeAt text a).mark t ts' ks') :
    Cleared text (rs ++ [⟨t, b⟩]) ts' ks' b := by
  have hread (i : Nat) (hi : Aside text (rs ++ [⟨t, b⟩]) i) :
      (placeAt text a).mark.Clears text i ∧ t.mark.Clears text i ∧
        (b ≤ i ∨ lineAt text i < lineAt text b) := by
    have ha := hi.of_append.past (h.here i hi.of_append) hskips hend
    exact ⟨Aside.placeAt_clears ha, hi.token_clears ha hskips.hash hspells⟩
  refine ⟨?_, ?_, fun i hi => (hread i hi).2.2⟩
  · intro i hi u hu
    rcases hadds.mem hu with hu | rfl | ⟨_, hu | ⟨k, hk, hu⟩⟩
    · rcases List.mem_append.mp hu with hu | hu
      · exact h.tokens i hi.of_append u hu
      · exact Or.inl (hends u hu)
    · exact Or.inr (hread i hi).2.1
    · exact Or.inr (hu ▸ (hread i hi).1)
    · exact Or.inr (hu ▸ h.keys i hi.of_append k hk)
  · intro i hi k hk
    rcases hadds.key hk with hk | hmark
    · exact h.keys i hi.of_append k hk
    · exact hmark ▸ (hread i hi).1

theorem Cleared.withKeys (h : Cleared text rs ts ks n) (hks : ∀ k ∈ ks', k ∈ ks) :
    Cleared text rs ts ks' n :=
  { h with keys := fun i hi k hk => h.keys i hi k (hks k hk) }

end Yaml

end Blueprint
