import Mathlib.Data.List.Induction
import Mathlib.Order.Monotone.Defs
import Blueprint.Proofs.Positions

/-!
The table of line starts of a source, and the positions by it: the line of an index is the last one
that starts at the index or before it, and the column is the distance from its start.
-/

namespace Blueprint

/-- A line starts behind the text. -/
def OpensLine (front : List Char) : Prop :=
  ∀ c ∈ front.getLast?, c = '\n'

theorem OpensLine.nil : OpensLine [] :=
  nofun

theorem OpensLine.feed (s : List Char) : OpensLine (s ++ ['\n']) := by
  intro c hc
  rw [List.getLast?_concat] at hc
  exact (Option.some.inj hc).symm

theorem OpensLine.cases {front : List Char} (h : OpensLine front) :
    front = [] ∨ ∃ s, front = s ++ ['\n'] := by
  rcases List.eq_nil_or_concat front with hnil | ⟨s, c, rfl⟩
  · exact Or.inl hnil
  · have hc : c = '\n' := h c (by rw [List.concat_eq_append, List.getLast?_concat]; rfl)
    exact Or.inr ⟨s, by rw [List.concat_eq_append, hc]⟩

/-- A text is cut behind its last line feed. -/
theorem exists_opensLine (s : List Char) :
    ∃ front tail, s = front ++ tail ∧ OpensLine front ∧ '\n' ∉ tail := by
  induction s using List.reverseRecOn with
  | nil => exact ⟨[], [], rfl, .nil, List.not_mem_nil⟩
  | append_singleton s c ih =>
    by_cases hfeed : c = '\n'
    · exact ⟨s ++ [c], [], (List.append_nil _).symm, hfeed ▸ .feed s, List.not_mem_nil⟩
    · obtain ⟨front, tail, rfl, hfront, htail⟩ := ih
      refine ⟨front, tail ++ [c], List.append_assoc front tail [c], hfront, ?_⟩
      exact List.not_mem_append htail (by simpa using Ne.symm hfeed)

theorem Mark.column_foldl_past {front : List Char} (h : OpensLine front) :
    (front.foldl Mark.past ⟨0, 1, 0⟩).column = 0 := by
  rcases h.cases with rfl | ⟨s, rfl⟩
  · rfl
  · rw [List.foldl_append]
    rfl

namespace Source

theorem startsAfter_append (b : Nat) (s t : List Char) :
    startsAfter b (s ++ t) = startsAfter b s ++ startsAfter (b + s.length) t := by
  induction s generalizing b with
  | nil => rfl
  | cons c r ih =>
    rw [List.cons_append, startsAfter, startsAfter, ih, List.length_cons,
      show b + 1 + r.length = b + (r.length + 1) by omega]
    split <;> rfl

theorem length_startsAfter (b : Nat) (s : List Char) :
    (startsAfter b s).length = s.count '\n' := by
  induction s generalizing b with
  | nil => rfl
  | cons c r ih =>
    rw [startsAfter]
    split
    next hfeed => rw [List.length_cons, ih, hfeed, List.count_cons_self]
    next hfeed => rw [ih, List.count_cons_of_ne hfeed]

theorem lt_of_mem_startsAfter {b n : Nat} {s : List Char} (h : n ∈ startsAfter b s) : b < n := by
  induction s generalizing b with
  | nil => cases h
  | cons c r ih =>
    rw [startsAfter] at h
    split at h
    · rcases List.mem_cons.mp h with rfl | h
      · exact Nat.lt_succ_self b
      · exact Nat.lt_of_succ_lt (ih h)
    · exact Nat.lt_of_succ_lt (ih h)

theorem startsAfter_sorted (b : Nat) (s : List Char) : (startsAfter b s).Pairwise (· < ·) := by
  induction s generalizing b with
  | nil => exact .nil
  | cons c r ih =>
    rw [startsAfter]
    split
    · exact List.pairwise_cons.mpr ⟨fun _ => lt_of_mem_startsAfter, ih (b + 1)⟩
    · exact ih (b + 1)

theorem countP_startsAfter (b i : Nat) (s : List Char) :
    (startsAfter b s).countP (· ≤ b + i) = (s.take i).count '\n' := by
  induction s generalizing b i with
  | nil => rw [List.take_nil]; rfl
  | cons c r ih =>
    cases i with
    | zero =>
      refine List.countP_eq_zero.mpr fun n hn => ?_
      have hlt := lt_of_mem_startsAfter hn
      simpa using hlt
    | succ i =>
      have hrest := ih (b + 1) i
      rw [Nat.add_right_comm b 1 i] at hrest
      rw [startsAfter, List.take_succ_cons]
      split
      next hfeed =>
        rw [List.countP_cons_of_pos (by simp), hfeed, List.count_cons_self]
        exact congrArg (· + 1) hrest
      next hfeed =>
        rw [List.count_cons_of_ne hfeed]
        exact hrest

section Table

variable (text : List Char)

theorem lineStarts_ofList : (ofList text).lineStarts.toList = 0 :: startsAfter 0 text := rfl

theorem size_lineStarts : (ofList text).lineStarts.size = text.count '\n' + 1 := by
  rw [← Array.length_toList, lineStarts_ofList, List.length_cons, length_startsAfter]

theorem lineStarts_sorted : (ofList text).lineStarts.toList.Pairwise (· < ·) :=
  List.pairwise_cons.mpr ⟨fun _ => lt_of_mem_startsAfter, startsAfter_sorted 0 text⟩

/-- The lines that start up to an index are those up to the line of the index. -/
theorem countP_lineStarts (i : Nat) :
    (ofList text).lineStarts.countP (· ≤ i) = lineAt text i := by
  have hrest := countP_startsAfter 0 i text
  rw [Nat.zero_add] at hrest
  rw [← Array.countP_toList, lineStarts_ofList, List.countP_cons_of_pos (by simp), hrest]
  rfl

variable {text} {front : List Char}

/-- Behind each line feed the table has the start of a line. -/
theorem getElem?_lineStarts (h : OpensLine front) (rest : List Char) :
    (ofList (front ++ rest)).lineStarts[front.count '\n']? = some front.length := by
  rw [← Array.getElem?_toList, lineStarts_ofList]
  rcases h.cases with rfl | ⟨s, rfl⟩
  · rfl
  · rw [List.count_append, List.append_assoc, startsAfter_append, List.length_append]
    show (startsAfter 0 s ++ startsAfter (0 + s.length) ('\n' :: rest))[s.count '\n']? = _
    rw [List.getElem?_append_right (by rw [length_startsAfter]), length_startsAfter, Nat.sub_self,
      Nat.zero_add, startsAfter, if_pos rfl]
    rfl

theorem lineStart_of_opensLine (h : OpensLine front) (rest : List Char) :
    (ofList (front ++ rest)).lineStart (front.count '\n' + 1) = front.length := by
  rw [lineStart, Nat.add_sub_cancel, getElem?_lineStarts h]
  rfl

end Table

/-- The position of an index, by the lines before it and the part of its own line before it. -/
theorem markAt_cut (text : List Char) (i : Nat) :
    ∃ front tail, text.take i = front ++ tail ∧ OpensLine front ∧ '\n' ∉ tail ∧
      (ofList text).markAt i =
        ⟨front.length + tail.length, front.count '\n' + 1, tail.length⟩ := by
  obtain ⟨front, tail, htake, hfront, htail⟩ := exists_opensLine (text.take i)
  refine ⟨front, tail, htake, hfront, htail, ?_⟩
  obtain ⟨hindex, hline⟩ := Mark.foldl_past ⟨0, 1, 0⟩ front
  rw [markAt_eq_foldl, htake, List.foldl_append, Mark.foldl_past_of_notMem htail, hindex, hline,
    Mark.column_foldl_past hfront]
  dsimp only
  congr 1 <;> omega

/-- The column of an index is its distance from the start of its line, and no line feed stands in
between. -/
theorem column_markAt (text : List Char) (i : Nat) :
    let m := (ofList text).markAt i
    (ofList text).lineStart m.line + m.column = m.index ∧
      '\n' ∉ (ofList text).slice ((ofList text).lineStart m.line) m.index := by
  obtain ⟨front, tail, htake, hfront, htail, hmark⟩ := markAt_cut text i
  have htext : front ++ (tail ++ text.drop i) = text := by
    rw [← List.append_assoc, ← htake, List.take_append_drop]
  have hstart : (ofList text).lineStart (front.count '\n' + 1) = front.length := by
    have hopens := lineStart_of_opensLine hfront (tail ++ text.drop i)
    rwa [htext] at hopens
  have hslice : (ofList text).slice front.length (front.length + tail.length) = tail := by
    rw [slice_ofList, ← List.length_append, ← htake, List.length_take, ← List.take_eq_take_min,
      htake, List.drop_left]
  rw [hmark]
  dsimp only
  rw [hstart, hslice]
  exact ⟨rfl, htail⟩

/-- The position of an index is its own, or the end of the text. Its line is one more than the number
of line feeds before it, which is the number of entries of the increasing table of line starts that
are not beyond it. Its column is its distance from the start of the line, with no line feed in
between. A later index does not stand earlier. -/
theorem markAt_places (text : String) :
    let source := ofText text
    source.lineStarts.toList.Pairwise (· < ·) ∧
      (∀ i,
        let m := source.markAt i
        m.index = min i text.length ∧
          m.line = (text.toList.take m.index).count '\n' + 1 ∧
          m.line = source.lineStarts.countP (· ≤ m.index) ∧
          source.lineStart m.line + m.column = m.index ∧
          '\n' ∉ source.slice (source.lineStart m.line) m.index) ∧
      Monotone (fun i => (source.markAt i).index) ∧ Monotone fun i => (source.markAt i).line := by
  intro source
  have hindex (i : Nat) : (source.markAt i).index = min i text.length := by
    rw [← String.length_toList]
    exact (markAt_ofList text.toList i).1
  have hline (i : Nat) : (source.markAt i).line = lineAt text.toList (source.markAt i).index := by
    rw [hindex, ← String.length_toList, lineAt_min]
    exact (markAt_ofList text.toList i).2
  have hmono {i j : Nat} (hij : i ≤ j) : (source.markAt i).index ≤ (source.markAt j).index := by
    rw [hindex, hindex]
    omega
  refine ⟨lineStarts_sorted _, fun i => ?_, fun i j hij => hmono hij, fun i j hij => ?_⟩
  · have hstarts := (hline i).trans (countP_lineStarts text.toList _).symm
    exact ⟨hindex i, hline i, hstarts, column_markAt text.toList i⟩
  · dsimp only
    rw [hline, hline]
    exact lineAt_mono _ (hmono hij)

-- The line feed ends its line, and an index behind the end stands at the end.
example :
    let source := ofText "é: ü\nx: y\n"
    source.markAt 4 = ⟨4, 1, 4⟩ ∧ source.markAt 5 = ⟨5, 2, 0⟩ ∧ source.markAt 99 = ⟨10, 3, 0⟩ := by
  decide +kernel

end Source

end Blueprint
