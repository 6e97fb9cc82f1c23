import Blueprint.Proofs.SplitLines
import Blueprint.Proofs.TokenGaps

/-!
The lines of a text: which of them a piece of the text stands on, and that a text of ordinary lines
is ordinary.
-/

namespace Blueprint

open Yaml (charAt)

namespace FileLines

/-- A line with a line end, in which there is no white space but spaces and tabs. -/
structure IsOrdinary (line : List Char) : Prop where
  ended : terminator line = ['\n'] ∨ terminator line = ['\r', '\n']
  chars : ∀ c ∈ content line, c ≠ '\x00' ∧ (Text.isBlank c = true → Yaml.isSpace c = true)

variable {lines : FileLines} {line A s B : List Char}

theorem lineAt_append_of_le {i : Nat} (h : i ≤ line.length) (s : List Char) :
    lineAt (line ++ s) i = lineAt line i := by
  unfold lineAt
  rw [List.take_append_of_le_length h]

/-- Behind a line with its line feed, lines count on. -/
theorem lineAt_line_append (h : IsLine line) (hended : IsEnded line) (s : List Char) (i : Nat) :
    lineAt (line ++ s) (line.length + i) = lineAt s i + 1 := by
  have hparts : line.dropLast ++ ['\n'] = line := List.dropLast_append_getLast? '\n' hended
  have hcount : line.count '\n' = 1 := by
    rw [← hparts, List.count_append, List.count_eq_zero.mpr h.feed]
    rfl
  unfold lineAt
  rw [List.take_length_add_append, List.count_append, hcount]
  omega

/-- A line has one number. -/
theorem lineAt_of_lt (h : IsLine line) {i : Nat} (hi : i < line.length) : lineAt line i = 1 := by
  have hfree : '\n' ∉ line.take i := fun hm => by
    refine h.feed (List.mem_of_mem_take (i := i) ?_)
    rwa [List.dropLast_eq_take, List.take_take, Nat.min_eq_left (Nat.le_sub_one_of_lt hi)]
  unfold lineAt
  rw [List.count_eq_zero.mpr hfree]

/-- A piece of a text without a line feed before its end stands on one line. -/
theorem AreSplit.exists_line (h : AreSplit lines) (hflat : lines.flatten = A ++ s ++ B) (hne : s ≠ [])
    (hfeed : '\n' ∉ s.dropLast) : ∃ pre post,
      lines[lineAt lines.flatten A.length - 1]? = some (pre ++ s ++ post) ∧ pre <:+ A ∧ post <+: B := by
  induction lines generalizing A with
  | nil =>
    rw [List.flatten_nil] at hflat
    exact absurd (List.append_eq_nil_iff.mp (List.append_eq_nil_iff.mp hflat.symm).1).2 hne
  | cons line r ih =>
    have hline := h.each line List.mem_cons_self
    obtain ⟨hended, hr⟩ := List.pairwise_cons.mp h.ended
    rw [List.flatten_cons] at hflat ⊢
    rw [List.append_assoc] at hflat
    obtain ⟨A', rfl, hrest⟩ | ⟨t, ht, rfl, hrest⟩ :
        (∃ A', A = line ++ A' ∧ r.flatten = A' ++ (s ++ B)) ∨
          ∃ t, t ≠ [] ∧ line = A ++ t ∧ s ++ B = t ++ r.flatten := by
      rcases List.append_eq_append_iff.mp hflat with hbehind | ⟨t, hline, hrest⟩
      · exact Or.inl hbehind
      · by_cases ht : t = []
        · rw [ht, List.append_nil] at hline
          exact Or.inl ⟨[], by rw [hline, List.append_nil], by rw [hrest, ht]; rfl⟩
        · exact Or.inr ⟨t, ht, hline, hrest⟩
    · -- The piece stands behind the first line.
      have hr' : r ≠ [] := by
        rintro rfl
        exact hne (List.append_eq_nil_iff.mp (List.append_eq_nil_iff.mp hrest.symm).2).1
      obtain ⟨later, hlater⟩ := List.exists_mem_of_ne_nil r hr'
      obtain ⟨pre, post, hget, hpre, hpost⟩ :=
        ih ⟨fun l hl => h.each l (List.mem_cons_of_mem line hl), hr⟩ (A := A')
          (by rw [hrest, List.append_assoc])
      refine ⟨pre, post, ?_, hpre.trans (List.suffix_append line A'), hpost⟩
      rw [List.length_append, lineAt_line_append hline (hended later hlater)]
      have hpos : 0 < lineAt r.flatten A'.length := Nat.succ_pos _
      rw [show lineAt r.flatten A'.length + 1 - 1 = lineAt r.flatten A'.length - 1 + 1 by omega,
        List.getElem?_cons_succ]
      exact hget
    · -- It stands on the first line, which ends with its line feed if another line follows.
      have hfirst : lineAt (A ++ t ++ r.flatten) A.length = 1 := by
        rw [lineAt_append_of_le (by simp)]
        refine lineAt_of_lt hline ?_
        rw [List.length_append]
        exact Nat.lt_add_of_pos_right (List.length_pos_of_ne_nil ht)
      obtain ⟨post, rfl, hB⟩ : ∃ post, t = s ++ post ∧ B = post ++ r.flatten := by
        rcases List.append_eq_append_iff.mp hrest with ⟨post, ht, hB⟩ | ⟨s', rfl, hR⟩
        · exact ⟨post, ht, hB⟩
        by_cases hs' : s' = []
        · exact ⟨[], by rw [hs', List.append_nil, List.append_nil], by rw [hR, hs']; rfl⟩
        · have hr' : r ≠ [] := by
            rintro rfl
            exact hs' (List.append_eq_nil_iff.mp hR.symm).1
          obtain ⟨later, hlater⟩ := List.exists_mem_of_ne_nil r hr'
          have hlast : t.getLast? = some '\n' := by
            have := hended later hlater
            rwa [IsEnded, List.getLast?_append_of_ne_nil A ht] at this
          rw [List.dropLast_append_of_ne_nil hs'] at hfeed
          exact absurd (List.mem_append_left _ (List.mem_of_mem_getLast? hlast)) hfeed
      refine ⟨A, post, ?_, List.suffix_refl A, ⟨r.flatten, hB.symm⟩⟩
      rw [hfirst, List.append_assoc]
      rfl

namespace IsOrdinary

theorem eq (h : IsOrdinary line) : line = content line ++ ['\n'] ∨
    line = content line ++ ['\r', '\n'] := by
  have hparts := content_append_terminator line
  rcases h.ended with hend | hend <;> rw [hend] at hparts
  · exact Or.inl hparts.symm
  · exact Or.inr hparts.symm

theorem not_mem_content (h : IsOrdinary line) {c : Char} (hblank : Text.isBlank c = true)
    (hspace : Yaml.isSpace c = false) : c ∉ content line := fun hm => by
  rw [(h.chars c hm).2 hblank] at hspace
  cases hspace

theorem mem (h : IsOrdinary line) {c : Char} (hm : c ∈ line) :
    c ≠ '\x00' ∧ (Text.isBlank c = true → Yaml.inGap .document c = true) := by
  have hcontent (hc : c ∈ content line) :
      c ≠ '\x00' ∧ (Text.isBlank c = true → Yaml.inGap .document c = true) :=
    ⟨(h.chars c hc).1, fun hblank => Bool.or_eq_true_iff.mpr (Or.inl ((h.chars c hc).2 hblank))⟩
  rcases h.eq with hline | hline <;> rw [hline] at hm <;> rcases List.mem_append.mp hm with hm | hm
  · exact hcontent hm
  · rw [List.mem_singleton.mp hm]
    decide
  · exact hcontent hm
  · rcases List.mem_pair.mp hm with rfl | rfl <;> decide

theorem isEnded (h : IsOrdinary line) : IsEnded line := by
  unfold IsEnded
  rcases h.eq with hline | hline <;> rw [hline]
  · exact List.getLast?_concat
  · rw [List.append_cons]
    exact List.getLast?_concat

theorem isLine (h : IsOrdinary line) : IsLine line := by
  have hfeed : '\n' ∉ content line := h.not_mem_content (by decide) (by decide)
  refine ⟨h.isEnded.ne_nil, ?_⟩
  rcases h.eq with hline | hline <;> rw [hline]
  · rwa [List.dropLast_concat]
  · rw [List.append_cons, List.dropLast_concat]
    intro hm
    rcases List.mem_append.mp hm with hm | hm
    · exact hfeed hm
    · exact absurd (List.mem_singleton.mp hm) (by decide)

end IsOrdinary

theorem areSplit_of_ordinary (h : ∀ line ∈ lines, IsOrdinary line) : AreSplit lines :=
  ⟨fun line hm => (h line hm).isLine,
    List.pairwise_of_forall_mem_list fun line hm _ _ => (h line hm).isEnded⟩

/-- A carriage return stands before the line feed of its line. -/
theorem head?_of_return (h : ∀ line ∈ lines, IsOrdinary line)
    (hflat : lines.flatten = A ++ '\r' :: B) : B.head? = some '\n' := by
  obtain ⟨pre, post, hget, -, hpost⟩ := (areSplit_of_ordinary h).exists_line
    (A := A) (s := ['\r']) (B := B) (by rw [hflat, List.append_assoc]; rfl)
    (List.cons_ne_nil _ _) (by decide)
  have hordinary := h _ (List.mem_of_getElem? hget)
  generalize hline : pre ++ ['\r'] ++ post = line at hget hordinary
  have hreturn : '\r' ∉ content line := hordinary.not_mem_content (by decide) (by decide)
  have hend : post = ['\n'] := by
    have hm : '\r' ∈ line := hline ▸ List.mem_append_left _ (List.mem_append_right _ List.mem_cons_self)
    rw [List.append_assoc] at hline
    rcases hordinary.eq with heq | heq <;> rw [heq] at hm hline
    · exact absurd hm (by simpa using hreturn)
    · exact ((List.append_cons_inj_of_notMem hreturn (by decide)).mp hline.symm).2.2.symm
  obtain ⟨rest, rfl⟩ := hpost
  rw [hend]
  rfl

/-- A text of ordinary lines is ordinary. -/
theorem ordinaryText (h : ∀ line ∈ lines, IsOrdinary line) (hne : lines ≠ []) :
    OrdinaryText lines.flatten where
  blanks i hblank := by
    rcases Nat.lt_or_ge i lines.flatten.length with hi | hi
    · obtain ⟨line, hline, hm⟩ := List.mem_flatten.mp (List.getElem_mem hi)
      rw [Yaml.charAt_of_getElem? (List.getElem?_eq_getElem hi)] at hblank ⊢
      exact ((h line hline).mem hm).2 hblank
    · rw [charAt, List.getD_eq_getElem?_getD, List.getElem?_eq_none hi] at hblank
      cases hblank
  nul i hi := by
    obtain ⟨line, hline, hm⟩ := List.mem_flatten.mp (List.getElem_mem hi)
    rw [Yaml.charAt_of_getElem? (List.getElem?_eq_getElem hi)]
    exact ((h line hline).mem hm).1
  returns i hreturn := by
    have hget := Yaml.getElem?_of_charAt hreturn (by decide)
    obtain ⟨hi, hchar⟩ := List.getElem?_eq_some_iff.mp hget
    have hflat : lines.flatten = lines.flatten.take i ++ '\r' :: lines.flatten.drop (i + 1) := by
      rw [← hchar, ← List.drop_eq_getElem_cons hi, List.take_append_drop]
    have hhead := head?_of_return h hflat
    rw [List.head?_drop] at hhead
    exact Yaml.charAt_of_getElem? hhead
  ended := by
    obtain ⟨front, last, rfl⟩ := (List.eq_nil_or_concat' lines).resolve_left hne
    have hlast := (h last List.mem_concat_self).isEnded
    rw [List.flatten_append, List.flatten_singleton, List.getLast?_append_of_ne_nil _ hlast.ne_nil]
    exact hlast

section Pieces

variable {text : List Char} {i n : Nat}

/-- What stands on one line of a text is a piece of this line. -/
theorem AreSplit.slice (h : AreSplit lines) (hn : 0 < n) (hi : i + n ≤ lines.flatten.length)
    (hline : lineAt lines.flatten (i + n - 1) = lineAt lines.flatten i) : ∃ pre post,
      lines[lineAt lines.flatten i - 1]? =
        some (pre ++ (lines.flatten.drop i).take n ++ post) ∧
      pre <:+ lines.flatten.take i ∧ post <+: lines.flatten.drop (i + n) := by
  generalize htext : lines.flatten = text at *
  have hlength : (text.take i).length = i := List.length_take_of_le (by omega)
  have hflat : lines.flatten = text.take i ++ (text.drop i).take n ++ text.drop (i + n) := by
    rw [htext, ← List.take_add, List.take_append_drop]
  have hpiece : ((text.drop i).take n).length = n := by
    rw [List.length_take, List.length_drop]
    omega
  obtain ⟨pre, post, hget, hpre, hpost⟩ := h.exists_line hflat
    (List.ne_nil_of_length_pos (by omega)) fun hm => by
      obtain ⟨k, hk, hfeed⟩ := List.getElem_of_mem hm
      rw [List.length_dropLast, hpiece] at hk
      have hfeed : text[i + k]? = some '\n' := by
        rw [List.getElem_dropLast, List.getElem_take, List.getElem_drop] at hfeed
        rw [← hfeed]
        exact List.getElem?_eq_getElem _
      have := lineAt_lt (j := i + n - 1) hfeed (by omega)
      have := lineAt_mono text (show i ≤ i + k by omega)
      omega
  rw [htext, hlength] at hget
  exact ⟨pre, post, hget, hpre, hpost⟩

theorem take_drop_succ (hi : i < text.length) :
    (text.drop i).take (n + 1) = charAt text i :: (text.drop (i + 1)).take n := by
  rw [List.drop_eq_getElem_cons hi, List.take_succ_cons,
    Yaml.charAt_of_getElem? (List.getElem?_eq_getElem hi)]

/-- Two characters of a line. -/
theorem AreSplit.pair (h : AreSplit lines) (hi : i + 1 < lines.flatten.length)
    (hline : lineAt lines.flatten (i + 1) = lineAt lines.flatten i) :
    ∃ line ∈ lines[lineAt lines.flatten i - 1]?,
      [charAt lines.flatten i, charAt lines.flatten (i + 1)] <:+: line := by
  obtain ⟨pre, post, hget, -, -⟩ := h.slice (n := 2) (by decide) (by omega) hline
  refine ⟨_, hget, pre, post, ?_⟩
  rw [take_drop_succ (by omega), take_drop_succ hi, List.take_zero]

/-- Three characters of a line. -/
theorem AreSplit.triple (h : AreSplit lines) (hi : i + 2 < lines.flatten.length)
    (hline : lineAt lines.flatten (i + 2) = lineAt lines.flatten i) :
    ∃ line ∈ lines[lineAt lines.flatten i - 1]?,
      [charAt lines.flatten i, charAt lines.flatten (i + 1), charAt lines.flatten (i + 2)] <:+:
        line := by
  obtain ⟨pre, post, hget, -, -⟩ := h.slice (n := 3) (by decide) (by omega) hline
  refine ⟨_, hget, pre, post, ?_⟩
  rw [take_drop_succ (by omega), take_drop_succ (by omega), take_drop_succ (by omega),
    List.take_zero]

/-- What stands right before an index. -/
theorem charAt_of_suffix {pre : List Char} {c : Char} (hi : i ≤ text.length)
    (hpre : pre <:+ text.take i) (hc : c ∈ pre.getLast?) : 0 < i ∧ charAt text (i - 1) = c := by
  obtain ⟨front, hfront⟩ := hpre
  have hne : pre ≠ [] := fun hnil => by
    rw [hnil] at hc
    cases hc
  have hlast := congrArg List.getLast? hfront
  rw [List.getLast?_append_of_ne_nil _ hne, Option.mem_def.mp hc, List.getLast?_eq_getElem?,
    List.length_take_of_le hi] at hlast
  have hpos : 0 < i := by
    by_contra hzero
    rw [show i = 0 by omega] at hlast
    cases hlast
  rw [List.getElem?_take_of_lt (by omega)] at hlast
  exact ⟨hpos, Yaml.charAt_of_getElem? hlast.symm⟩

/-- The character behind a line feed is the first one of its line. -/
theorem AreSplit.head (h : AreSplit lines) (hi : i + 1 < lines.flatten.length)
    (hfeed : charAt lines.flatten i = '\n') : ∃ line ∈ lines[lineAt lines.flatten (i + 1) - 1]?,
      line.head? = some (charAt lines.flatten (i + 1)) := by
  obtain ⟨pre, post, hget, hpre, -⟩ := h.slice (i := i + 1) Nat.one_pos (by omega) rfl
  rw [take_drop_succ hi, List.take_zero] at hget
  refine ⟨_, hget, ?_⟩
  by_cases hnil : pre = []
  · rw [hnil]
    rfl
  · have hlast := List.getLast?_eq_some_getLast hnil
    obtain ⟨-, hc⟩ := charAt_of_suffix (by omega) hpre hlast
    rw [Nat.add_sub_cancel, hfeed] at hc
    rw [← hc] at hlast
    have hline := (h.each _ (List.mem_of_getElem? hget)).feed
    rw [List.append_assoc, List.dropLast_append_of_ne_nil (by simp)] at hline
    exact absurd (List.mem_append_left _ (List.mem_of_getLast? hlast)) hline

end Pieces

end FileLines

end Blueprint
