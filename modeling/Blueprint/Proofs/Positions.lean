import Blueprint.Proofs.ScanOrder
import Blueprint.Text.Source

/-!
Positions in a document. The line of an index counts the line feeds before it, for the tables of a
source as well as for the places that a reader passes.
-/

namespace Blueprint

/-- The line of the character at an index, counted from 1. -/
def lineAt (text : List Char) (i : Nat) : Nat :=
  (text.take i).count '\n' + 1

theorem lineAt_mono (text : List Char) {i j : Nat} (h : i ≤ j) : lineAt text i ≤ lineAt text j := by
  unfold lineAt
  have := ((List.take_sublist_take_left h : (text.take i).Sublist (text.take j))).count_le '\n'
  omega

theorem lineAt_min (text : List Char) (i : Nat) :
    lineAt text (min i text.length) = lineAt text i := by
  unfold lineAt
  rw [← List.take_eq_take_min]

theorem lineAt_succ {text : List Char} {i : Nat} (h : text[i]? = some '\n') :
    lineAt text (i + 1) = lineAt text i + 1 := by
  unfold lineAt
  rw [List.take_add_one, h, List.count_append]
  rfl

/-- A text without line feeds stays on its line. -/
theorem lineAt_eq {text : List Char} {i j : Nat} (hij : i ≤ j)
    (h : ∀ k, i ≤ k → k < j → text[k]? ≠ some '\n') : lineAt text i = lineAt text j := by
  induction j, hij using Nat.le_induction with
  | base => rfl
  | succ j hij ih =>
    rw [ih fun k hk hkj => h k hk (Nat.lt_succ_of_lt hkj)]
    unfold lineAt
    rw [List.take_add_one, List.count_append]
    cases hget : text[j]? with
    | none => rfl
    | some c =>
      have hne : c ≠ '\n' := fun heq => h j hij (Nat.lt_succ_self j) (heq ▸ hget)
      rw [Option.toList_some, List.count_singleton, if_neg (by simpa using hne)]

/-- A line feed parts the lines before and behind it. -/
theorem lineAt_lt {text : List Char} {i j : Nat} (h : text[i]? = some '\n') (hij : i < j) :
    lineAt text i < lineAt text j := by
  have := lineAt_mono text hij
  rwa [Nat.succ_eq_add_one, lineAt_succ h] at this

/-- Between two lines there is a line feed. -/
theorem exists_feed {text : List Char} {i j : Nat} (h : lineAt text i < lineAt text j) :
    ∃ k, i ≤ k ∧ k < j ∧ text[k]? = some '\n' := by
  by_contra hnone
  have hij : i ≤ j := by
    by_contra hji
    exact absurd (lineAt_mono text (Nat.le_of_not_le hji)) (Nat.not_le.mpr h)
  refine Nat.ne_of_lt h (lineAt_eq hij ?_)
  exact fun k hik hkj hfound => hnone ⟨k, hik, hkj, hfound⟩

/-- Passing over a text counts its characters and its line feeds. -/
theorem Mark.foldl_past (m : Mark) (s : List Char) :
    (s.foldl Mark.past m).index = m.index + s.length ∧
      (s.foldl Mark.past m).line = m.line + s.count '\n' := by
  induction s generalizing m with
  | nil => exact ⟨rfl, rfl⟩
  | cons c r ih =>
    obtain ⟨hindex, hline⟩ := ih (m.past c)
    rw [List.foldl_cons, hindex, hline]
    unfold Mark.past
    split
    next hfeed =>
      rw [hfeed, List.count_cons_self, List.length_cons]
      dsimp only
      omega
    next hfeed =>
      rw [List.count_cons_of_ne hfeed, List.length_cons]
      dsimp only
      omega

/-- A text without line feeds is passed over on one line. -/
theorem Mark.foldl_past_of_notMem {s : List Char} (h : '\n' ∉ s) (m : Mark) :
    s.foldl Mark.past m = ⟨m.index + s.length, m.line, m.column + s.length⟩ := by
  induction s generalizing m with
  | nil => rfl
  | cons c r ih =>
    have hc : c ≠ '\n' := fun hc => h (hc ▸ List.mem_cons_self)
    rw [List.foldl_cons, ih fun hr => h (List.mem_cons_of_mem c hr), past, if_neg hc,
      List.length_cons]
    dsimp only
    congr 1 <;> omega

theorem getElem?_marksFrom (m : Mark) (s : List Char) {i : Nat} (h : i ≤ s.length) :
    (Source.marksFrom m s)[i]? = some ((s.take i).foldl Mark.past m) := by
  induction s generalizing m i with
  | nil =>
    obtain rfl : i = 0 := Nat.le_zero.mp h
    rfl
  | cons c r ih =>
    cases i with
    | zero => rfl
    | succ i =>
      rw [Source.marksFrom, List.getElem?_cons_succ, ih _ (Nat.le_of_succ_le_succ h),
        List.take_succ_cons, List.foldl_cons]

namespace Source

theorem size_ofList (text : List Char) : (ofList text).size = text.length := by
  simp [size, ofList]

/-- The position of an index is where the characters before it lead. -/
theorem markAt_eq_foldl (text : List Char) (i : Nat) :
    (ofList text).markAt i = (text.take i).foldl Mark.past ⟨0, 1, 0⟩ := by
  have hget := getElem?_marksFrom ⟨0, 1, 0⟩ text (Nat.min_le_right i text.length)
  rw [markAt, size_ofList, ofList, Array.getD_eq_getD_getElem?, List.getElem?_toArray, hget,
    ← List.take_eq_take_min]
  rfl

theorem markAt_ofList (text : List Char) (i : Nat) :
    ((ofList text).markAt i).index = min i text.length ∧
      ((ofList text).markAt i).line = lineAt text i := by
  rw [markAt_eq_foldl]
  obtain ⟨hindex, hline⟩ := Mark.foldl_past ⟨0, 1, 0⟩ (text.take i)
  rw [hindex, hline, List.length_take]
  exact ⟨Nat.zero_add _, Nat.add_comm _ _⟩

theorem markAt_min (text : List Char) (i : Nat) :
    (ofList text).markAt (min i text.length) = (ofList text).markAt i := by
  rw [markAt_eq_foldl, markAt_eq_foldl, ← List.take_eq_take_min]

theorem markAt_add (text : List Char) (i n : Nat) :
    (ofList text).markAt (i + n) =
      ((text.drop i).take n).foldl Mark.past ((ofList text).markAt i) := by
  rw [markAt_eq_foldl, markAt_eq_foldl, List.take_add, List.foldl_append]

theorem slice_ofList (text : List Char) (start stop : Nat) :
    (ofList text).slice start stop = (text.take stop).drop start := by
  simp [slice, ofList, List.drop_take]

theorem getElem?_startsAfter (b : Nat) (s : List Char) {i k : Nat}
    (h : k < (s.take i).count '\n') :
    ∃ n, n ≤ i ∧ (startsAfter b s)[k]? = some (b + n) ∧ (s.take n).count '\n' = k + 1 := by
  induction s generalizing b i k with
  | nil => simp at h
  | cons c r ih =>
    cases i with
    | zero => simp at h
    | succ i =>
      rw [startsAfter]
      rw [List.take_succ_cons] at h
      by_cases hfeed : c = '\n'
      · rw [hfeed, List.count_cons_self] at h
        rw [if_pos hfeed]
        cases k with
        | zero => exact ⟨1, by omega, rfl, by simp [hfeed]⟩
        | succ k =>
          obtain ⟨n, hn, hget, hcount⟩ := ih (b + 1) (i := i) (k := k) (by omega)
          refine ⟨n + 1, by omega, ?_, ?_⟩
          · rw [List.getElem?_cons_succ, hget]
            congr 1
            omega
          · rw [List.take_succ_cons, hfeed, List.count_cons_self, hcount]
      · rw [List.count_cons_of_ne hfeed] at h
        rw [if_neg hfeed]
        obtain ⟨n, hn, hget, hcount⟩ := ih (b + 1) h
        refine ⟨n + 1, by omega, ?_, ?_⟩
        · rw [hget]
          congr 1
          omega
        · rw [List.take_succ_cons, List.count_cons_of_ne hfeed, hcount]

/-- A line starts at or before each of its characters, and its start is on the line. -/
theorem lineStart_lineAt (text : List Char) (i : Nat) :
    (ofList text).lineStart (lineAt text i) ≤ i ∧
      lineAt text ((ofList text).lineStart (lineAt text i)) = lineAt text i := by
  have key : ∃ n, n ≤ i ∧ (ofList text).lineStart (lineAt text i) = n ∧
      lineAt text n = lineAt text i := by
    unfold lineStart lineAt
    rw [Nat.add_sub_cancel]
    cases hk : (text.take i).count '\n' with
    | zero => exact ⟨0, Nat.zero_le i, by simp [ofList], by simp⟩
    | succ k =>
      obtain ⟨n, hn, hget, hcount⟩ := getElem?_startsAfter 0 text (i := i) (k := k) (by omega)
      refine ⟨n, hn, ?_, by rw [hcount]⟩
      simp only [ofList, List.getElem?_toArray, List.getElem?_cons_succ, hget]
      simp
  obtain ⟨n, hn, hstart, hline⟩ := key
  rw [hstart]
  exact ⟨hn, hline⟩

theorem lineAt_le_of_lt_lineEnd {text : List Char} {i line : Nat} (hline : 0 < line)
    (h : i < (ofList text).lineEnd line) : lineAt text i ≤ line := by
  by_contra hlt
  have hk : line - 1 < (text.take i).count '\n' := by
    unfold lineAt at hlt
    omega
  obtain ⟨n, hn, hget, _⟩ := getElem?_startsAfter 0 text hk
  have hnext : (ofList text).lineStarts[line]? = some n := by
    obtain ⟨k, rfl⟩ := Nat.exists_eq_add_one_of_ne_zero (Nat.ne_of_gt hline)
    simpa [ofList] using hget
  unfold lineEnd at h
  rw [hnext] at h
  dsimp only at h
  have hstop : n - 1 - 1 ≤ n := (Nat.sub_le _ 1).trans (Nat.sub_le n 1)
  split at h
  · exact absurd (h.trans_le hstop) (Nat.not_lt.mpr hn)
  · exact absurd (h.trans_le (Nat.sub_le n 1)) (Nat.not_lt.mpr hn)

end Source

namespace Yaml

theorem skip_document (text : List Char) (n : Nat) :
    ((Cursor.ofList text).skip .document n).rest = text.drop n ∧
      ((Cursor.ofList text).skip .document n).mark.index = n ∧
      ((Cursor.ofList text).skip .document n).mark.line = lineAt text n := by
  have key (c : Cursor) : (c.skip .document n).rest = c.rest.drop n ∧
      (c.skip .document n).mark.index = c.mark.index + n ∧
      (c.skip .document n).mark.line = c.mark.line + (c.rest.take n).count '\n' := by
    induction n generalizing c with
    | zero => simp [Cursor.skip]
    | succ n ih =>
      obtain ⟨hrest, hindex, hline⟩ := ih (c.advance .document)
      rw [Cursor.skip, hrest, hindex, hline]
      obtain ⟨rest, mark⟩ := c
      cases rest with
      | nil => simp [Cursor.advance, Dialect.past, Dialect.width, Dialect.strict]; omega
      | cons x r =>
        by_cases hfeed : x = '\n'
        · simp [Cursor.advance, Dialect.past, Dialect.width, Dialect.strict, hfeed]; omega
        · simp [Cursor.advance, Dialect.past, Dialect.width, Dialect.strict, hfeed]; omega
  obtain ⟨hrest, hindex, hline⟩ := key (Cursor.ofList text)
  refine ⟨hrest, ?_, ?_⟩
  · rw [hindex]
    simp [Cursor.ofList]
  · rw [hline, lineAt]
    simp [Cursor.ofList]
    omega

end Yaml

end Blueprint

/-!
The places of a document by their index, and the characters that stand there.
-/

namespace Blueprint.Yaml

/-- The character at an index of a text, NUL after its end. -/
def charAt (text : List Char) (i : Nat) : Char :=
  text.getD i '\x00'

theorem charAt_of_getElem? {text : List Char} {i : Nat} {c : Char} (h : text[i]? = some c) :
    charAt text i = c := by
  rw [charAt, List.getD_eq_getElem?_getD, h]
  rfl

theorem getElem?_of_charAt {text : List Char} {i : Nat} {c : Char} (h : charAt text i = c)
    (hc : c ≠ '\x00') : text[i]? = some c := by
  rw [charAt, List.getD_eq_getElem?_getD] at h
  cases hget : text[i]? with
  | none => exact absurd (by rw [← h, hget]; rfl) hc
  | some d => rw [← h, hget]; rfl

theorem lt_length_of_charAt {text : List Char} {i : Nat} (h : isEnd (charAt text i) = false) :
    i < text.length := by
  by_contra hle
  rw [charAt, List.getD_eq_getElem?_getD, List.getElem?_eq_none (Nat.le_of_not_lt hle)] at h
  cases h

theorem drop_eq_charAt {text : List Char} {i : Nat} (h : isEnd (charAt text i) = false) :
    text.drop i = charAt text i :: text.drop (i + 1) := by
  have hlt := lt_length_of_charAt h
  rw [charAt, List.getD_eq_getElem?_getD, List.getElem?_eq_getElem hlt]
  exact List.drop_eq_getElem_cons hlt

/-- The place at an index of a document. -/
def placeAt (text : List Char) (n : Nat) : Cursor :=
  (Cursor.ofList text).skip .document n

section Places

variable {text : List Char} {n m : Nat}

@[simp] theorem placeAt_rest : (placeAt text n).rest = text.drop n :=
  (skip_document text n).1

@[simp] theorem placeAt_index : (placeAt text n).mark.index = n :=
  (skip_document text n).2.1

@[simp] theorem placeAt_line : (placeAt text n).mark.line = lineAt text n :=
  (skip_document text n).2.2

@[simp] theorem placeAt_skip : (placeAt text n).skip .document m = placeAt text (n + m) :=
  (Cursor.skip_add .document n m _).symm

@[simp] theorem placeAt_advance : (placeAt text n).advance .document = placeAt text (n + 1) :=
  placeAt_skip (m := 1)

@[simp] theorem placeAt_ahead : (placeAt text n).ahead m = charAt text (n + m) := by
  unfold Cursor.ahead charAt
  rw [placeAt_rest, List.getD_eq_getElem?_getD, List.getElem?_drop, List.getD_eq_getElem?_getD]

@[simp] theorem placeAt_first : (placeAt text n).first = charAt text n := by
  rw [← Cursor.ahead_zero, placeAt_ahead, Nat.add_zero]

/-- A reader that passes over the character at a place is at the next one. -/
theorem placeAt_past (h : isEnd (charAt text n) = false) :
    (⟨text.drop (n + 1), Dialect.document.past (charAt text n) (text.drop (n + 1))
      (placeAt text n).mark⟩ : Cursor) = placeAt text (n + 1) := by
  rw [← placeAt_advance, Cursor.advance, placeAt_rest, drop_eq_charAt h]

theorem placeAt_column (h : (placeAt text n).mark.column = 0) (hn : 0 < n) :
    text[n - 1]? = some '\n' := by
  obtain ⟨k, rfl⟩ := Nat.exists_eq_add_one_of_ne_zero (Nat.ne_of_gt hn)
  rw [← placeAt_advance, Cursor.advance] at h
  split at h
  next hrest =>
    cases h
  next x r hrest =>
    rw [placeAt_rest] at hrest
    have hget : text[k]? = some x := by
      rw [← List.head?_drop, hrest]
      rfl
    by_cases hfeed : x = '\n'
    · rw [Nat.add_sub_cancel, hget, hfeed]
    · simp [Dialect.past, Dialect.strict, hfeed] at h

theorem placeAt_reaches {c : Cursor} (h : (placeAt text n).Reaches .document c) :
    ∃ m, n ≤ m ∧ c = placeAt text m := by
  obtain ⟨k, rfl⟩ := h
  exact ⟨n + k, Nat.le_add_right n k, placeAt_skip⟩

theorem placeAt_passes {p : Char → Bool} {c : Cursor}
    (h : (placeAt text n).Passes .document p c) :
    ∃ m, n ≤ m ∧ c = placeAt text m ∧ ∀ i, n ≤ i → i < m → p (charAt text i) = true := by
  obtain ⟨k, rfl, hk⟩ := h
  refine ⟨n + k, Nat.le_add_right n k, placeAt_skip, ?_⟩
  intro i hn hi
  have := hk (i - n) (by omega)
  rwa [placeAt_ahead, Nat.add_sub_cancel' hn] at this

theorem isEnd_of_isBreak {c : Char} (h : Dialect.document.isBreak c = true) : isEnd c = false := by
  by_contra hend
  rw [beq_iff_eq.mp (Bool.of_not_eq_false hend)] at h
  cases h

/-- A line break is passed as a whole; a line feed is the last character of it. -/
theorem placeAt_skipBreak : ∃ m, (placeAt text n).skipBreak .document = placeAt text m ∧
    n ≤ m ∧ (Dialect.document.isBreak (charAt text n) = true → n < m) ∧
    (∀ i, n ≤ i → i < m → Dialect.document.isBreak (charAt text i) = true) ∧
    ∀ i, n ≤ i → i + 1 < m → charAt text i ≠ '\n' := by
  unfold Cursor.skipBreak
  simp only [placeAt_first, placeAt_ahead, placeAt_skip, placeAt_advance]
  split
  next h =>
    rw [Bool.and_eq_true, beq_iff_eq, beq_iff_eq] at h
    refine ⟨n + 2, rfl, Nat.le_add_right n 2, fun _ => by omega, ?_, ?_⟩
    · intro i hn hi
      rcases Nat.lt_succ_iff_lt_or_eq.mp hi with hi | rfl
      · rw [show i = n by omega, h.1]
        rfl
      · rw [h.2]
        rfl
    · intro i hn hi
      rw [show i = n by omega, h.1]
      decide
  · split
    next h =>
      refine ⟨n + 1, rfl, Nat.le_succ n, fun _ => Nat.lt_succ_self n, ?_, fun i hn hi => by omega⟩
      intro i hn hi
      rw [show i = n by omega]
      exact h
    next h =>
      exact ⟨n, rfl, le_rfl, fun hbreak => absurd hbreak h, fun i hn hi => by omega,
        fun i hn hi => by omega⟩

theorem takeFrom_first {d : Dialect} {p : Char → Bool} (hp : p '\x00' = false) (s : List Char)
    (m : Mark) : p (Cursor.takeFrom d p s m).2.first = false := by
  induction s generalizing m with
  | nil => exact hp
  | cons x r ih =>
    rw [Cursor.takeFrom]
    split
    · exact ih _
    next hx => exact Bool.of_not_eq_true hx

/-- A comment is passed up to the end of its line. -/
theorem placeAt_skipComment (h : charAt text n = '#') :
    ∃ m, (placeAt text n).skipComment .document = placeAt text m ∧ n < m ∧
      Dialect.document.isBreakOrEnd (charAt text m) = true := by
  have hopen : isEnd (charAt text n) = false := by rw [h]; rfl
  have hreach := takeFrom_reaches .document (fun x => !Dialect.document.isBreakOrEnd x)
    (text.drop (n + 1)) (Dialect.document.past (charAt text n) (text.drop (n + 1))
      (placeAt text n).mark)
  have hfirst := takeFrom_first (d := .document) (p := fun x => !Dialect.document.isBreakOrEnd x)
    rfl (text.drop (n + 1)) (Dialect.document.past (charAt text n) (text.drop (n + 1))
      (placeAt text n).mark)
  rw [placeAt_past hopen] at hreach
  obtain ⟨m, hle, hm⟩ := placeAt_reaches hreach
  rw [hm, placeAt_first, Bool.not_eq_false'] at hfirst
  refine ⟨m, ?_, hle, hfirst⟩
  rw [Cursor.skipComment, placeAt_first, h, if_pos (beq_self_eq_true '#'), Cursor.skipWhile,
    Cursor.takeWhile, placeAt_rest, drop_eq_charAt hopen, Cursor.takeFrom, if_pos (by rw [h]; rfl)]
  exact hm

end Places

end Blueprint.Yaml
