import Blueprint.Fix.Shifts
import Mathlib.Algebra.Ring.Int.Defs

/-!
A recorded shift moves the lines after its own and leaves the others where they are. After any number
of records a line has moved by all that were made for lines before it.
-/

namespace Blueprint.LineShifts

/-- The shift of a line by the entries `shifts`, behind entries that end with `shift`. -/
def shiftAfter (line : Nat) (shift : Int) : List (Nat × Int) → Int
  | [] => shift
  | (first, next) :: r => if first ≤ line then shiftAfter line next r else shift

theorem takeWhile_cons_of_le {line : Nat} {entry : Nat × Int} (h : entry.1 ≤ line)
    (r : List (Nat × Int)) :
    (entry :: r).takeWhile (·.1 ≤ line) = entry :: r.takeWhile (·.1 ≤ line) := by
  simp [h]

theorem takeWhile_cons_of_gt {line : Nat} {entry : Nat × Int} (h : ¬entry.1 ≤ line)
    (r : List (Nat × Int)) : (entry :: r).takeWhile (·.1 ≤ line) = [] := by
  simp only [List.takeWhile_cons, h, decide_false, Bool.false_eq_true, if_false]

theorem shiftOf_eq_shiftAfter (o : LineShifts) (line : Nat) :
    o.shiftOf line = shiftAfter line 0 o.shifts := by
  have key (shift : Int) (shifts : List (Nat × Int)) :
      ((shifts.takeWhile (·.1 ≤ line)).getLast?.map (·.2)).getD shift =
        shiftAfter line shift shifts := by
    induction shifts generalizing shift with
    | nil => rfl
    | cons entry r ih =>
      obtain ⟨first, next⟩ := entry
      rw [shiftAfter]
      by_cases hle : first ≤ line
      · rw [takeWhile_cons_of_le hle, if_pos hle, ← ih next]
        cases htail : r.takeWhile (·.1 ≤ line) with
        | nil => rfl
        | cons entry' r' =>
          rw [List.getLast?_cons_cons]
          cases hlast : (entry' :: r').getLast? with
          | none => simp at hlast
          | some last => rfl
      · rw [takeWhile_cons_of_gt hle, if_neg hle]
        rfl
  rw [← key, shiftOf]
  split
  next hlast => rw [hlast]; rfl
  next hlast => rw [hlast]; rfl

theorem shiftAfter_map_add (line : Nat) (shift delta : Int) (shifts : List (Nat × Int)) :
    shiftAfter line (shift + delta) (shifts.map fun (l, s) => (l, s + delta)) =
      shiftAfter line shift shifts + delta := by
  induction shifts generalizing shift with
  | nil => rfl
  | cons entry r ih =>
    rw [List.map_cons, shiftAfter, shiftAfter]
    split
    · exact ih entry.2
    · rfl

/-- The entries up to a line count for a later line only by the shift at that line. -/
theorem shiftAfter_append_of_lt {line other : Nat} (h : line < other) (shift : Int)
    (shifts later : List (Nat × Int)) :
    shiftAfter other shift (shifts.takeWhile (·.1 ≤ line) ++ later) =
      shiftAfter other (shiftAfter line shift shifts) later := by
  induction shifts generalizing shift with
  | nil => rfl
  | cons entry r ih =>
    by_cases hle : entry.1 ≤ line
    · rw [takeWhile_cons_of_le hle, List.cons_append, shiftAfter, shiftAfter,
        if_pos hle, if_pos (by omega), ih]
    · rw [takeWhile_cons_of_gt hle, shiftAfter, if_neg hle]
      rfl

theorem shiftAfter_append_of_le {line other : Nat} (h : other ≤ line) (shift next : Int)
    (shifts later : List (Nat × Int)) :
    shiftAfter other shift (shifts.takeWhile (·.1 ≤ line) ++ (line + 1, next) :: later) =
      shiftAfter other shift shifts := by
  induction shifts generalizing shift with
  | nil =>
    show shiftAfter other shift ((line + 1, next) :: later) = shift
    rw [shiftAfter, if_neg (by omega)]
  | cons entry r ih =>
    by_cases hle : entry.1 ≤ line
    · rw [takeWhile_cons_of_le hle, List.cons_append, shiftAfter, shiftAfter,
        ih]
    · rw [takeWhile_cons_of_gt hle, shiftAfter, if_neg (by omega)]
      show shiftAfter other shift ((line + 1, next) :: later) = shift
      rw [shiftAfter, if_neg (by omega)]

/-- The entries behind a line before a shift is recorded for it: they start right after it. -/
def laterShifts (o : LineShifts) (line : Nat) : List (Nat × Int) :=
  let after := o.shifts.dropWhile (·.1 ≤ line)
  if after.head?.any (·.1 == line + 1) then after else (line + 1, o.shiftOf line) :: after

theorem record_shifts (o : LineShifts) {delta : Int} (h : delta ≠ 0) (line : Nat) :
    (o.record line delta).shifts = o.shifts.takeWhile (·.1 ≤ line) ++
      (o.laterShifts line).map fun (l, shift) => (l, shift + delta) := by
  unfold record
  rw [if_neg h]
  rfl

theorem laterShifts_spec (o : LineShifts) (line : Nat) :
    ∃ next rest, o.laterShifts line = (line + 1, next) :: rest ∧
      ∀ other, line < other → shiftAfter other next rest = o.shiftOf other := by
  have hsplit {other : Nat} (h : line < other) : o.shiftOf other =
      shiftAfter other (o.shiftOf line) (o.shifts.dropWhile (·.1 ≤ line)) := by
    rw [shiftOf_eq_shiftAfter, shiftOf_eq_shiftAfter, ← shiftAfter_append_of_lt h,
      List.takeWhile_append_dropWhile]
  unfold laterShifts
  dsimp only
  split
  next hhead =>
    cases hafter : o.shifts.dropWhile (·.1 ≤ line) with
    | nil =>
      rw [hafter] at hhead
      cases hhead
    | cons entry rest =>
      obtain ⟨first, next⟩ := entry
      rw [hafter] at hhead
      have heq : first = line + 1 := by simpa using hhead
      subst heq
      refine ⟨next, rest, rfl, ?_⟩
      intro other h
      rw [hsplit h, hafter, shiftAfter, if_pos (by omega)]
  · exact ⟨o.shiftOf line, _, rfl, fun other h => (hsplit h).symm⟩

theorem shiftOf_record_of_le (o : LineShifts) {line other : Nat} (h : other ≤ line) (delta : Int) :
    (o.record line delta).shiftOf other = o.shiftOf other := by
  by_cases hdelta : delta = 0
  · rw [record, if_pos hdelta]
  · obtain ⟨next, rest, hlater, _⟩ := o.laterShifts_spec line
    rw [shiftOf_eq_shiftAfter, shiftOf_eq_shiftAfter, record_shifts o hdelta, hlater, List.map_cons,
      shiftAfter_append_of_le h]

theorem shiftOf_record_of_lt (o : LineShifts) {line other : Nat} (h : line < other) (delta : Int) :
    (o.record line delta).shiftOf other = o.shiftOf other + delta := by
  by_cases hdelta : delta = 0
  · rw [record, if_pos hdelta, hdelta, Int.add_zero]
  · obtain ⟨next, rest, hlater, hshift⟩ := o.laterShifts_spec line
    rw [shiftOf_eq_shiftAfter, record_shifts o hdelta, hlater, shiftAfter_append_of_lt h,
      List.map_cons, shiftAfter, if_pos (by omega), shiftAfter_map_add, hshift other h]

/-! A history of records. -/

/-- The entries are in the order of their lines, and no line has two. -/
def Ordered (o : LineShifts) : Prop :=
  o.shifts.Pairwise (·.1 < ·.1)

/-- The shifts after some records, each of a line and of how many lines were added behind it. -/
def ofRecords (records : List (Nat × Int)) : LineShifts :=
  records.foldl (fun o (line, delta) => o.record line delta) .empty

/-- By how much all records together move a line. -/
def movedBy (records : List (Nat × Int)) (line : Nat) : Int :=
  ((records.filter (·.1 < line)).map (·.2)).sum

theorem lt_of_mem_dropWhile {line : Nat} {shifts : List (Nat × Int)}
    (h : shifts.Pairwise (·.1 < ·.1)) {entry : Nat × Int}
    (he : entry ∈ shifts.dropWhile (·.1 ≤ line)) : line < entry.1 := by
  induction shifts with
  | nil => cases he
  | cons first r ih =>
    obtain ⟨hfirst, hr⟩ := List.pairwise_cons.mp h
    rw [List.dropWhile_cons] at he
    split at he
    · exact ih hr he
    next hle =>
      have hlt := Nat.lt_of_not_le fun h => hle (decide_eq_true h)
      rcases List.mem_cons.mp he with rfl | he
      · exact hlt
      · exact Nat.lt_trans hlt (hfirst entry he)

theorem Ordered.laterShifts {o : LineShifts} (h : o.Ordered) (line : Nat) :
    (o.laterShifts line).Pairwise (·.1 < ·.1) ∧ ∀ entry ∈ o.laterShifts line, line < entry.1 := by
  have hlater : (o.shifts.dropWhile (·.1 ≤ line)).Pairwise (·.1 < ·.1) :=
    h.sublist (List.dropWhile_sublist _)
  have hgt : ∀ entry ∈ o.shifts.dropWhile (·.1 ≤ line), line < entry.1 :=
    fun _ he => lt_of_mem_dropWhile h he
  unfold LineShifts.laterShifts
  dsimp only
  split
  · exact ⟨hlater, hgt⟩
  next hhead =>
    have hnext : ∀ entry ∈ o.shifts.dropWhile (·.1 ≤ line), line + 1 < entry.1 := by
      cases hafter : o.shifts.dropWhile (·.1 ≤ line) with
      | nil => exact fun _ he => absurd he List.not_mem_nil
      | cons first r =>
        rw [hafter] at hlater hgt hhead
        have hne : first.1 ≠ line + 1 := by simpa using hhead
        have hfirst := hgt first List.mem_cons_self
        intro entry he
        rcases List.mem_cons.mp he with rfl | he
        · omega
        · have := (List.pairwise_cons.mp hlater).1 entry he
          omega
    refine ⟨List.pairwise_cons.mpr ⟨hnext, hlater⟩, ?_⟩
    intro entry he
    rcases List.mem_cons.mp he with rfl | he
    · exact Nat.lt_succ_self line
    · exact hgt entry he

theorem Ordered.record {o : LineShifts} (h : o.Ordered) (line : Nat) (delta : Int) :
    (o.record line delta).Ordered := by
  by_cases hdelta : delta = 0
  · rw [LineShifts.record, if_pos hdelta]
    exact h
  · obtain ⟨hlater, hgt⟩ := h.laterShifts line
    unfold Ordered
    rw [record_shifts o hdelta]
    refine List.pairwise_append.mpr ⟨?_, List.pairwise_map.mpr hlater, ?_⟩
    · exact h.sublist (List.takeWhile_sublist _)
    · intro entry he moved hm
      obtain ⟨old, hold, rfl⟩ := List.mem_map.mp hm
      have hle : entry.1 ≤ line := of_decide_eq_true (List.all_eq_true.mp List.all_takeWhile entry he)
      exact Nat.lt_of_le_of_lt hle (hgt old hold)

/-- Of the entries in their order, that of a line tells the shift of the line. -/
theorem shiftAfter_of_mem {line : Nat} {next : Int} {shifts : List (Nat × Int)}
    (h : shifts.Pairwise (·.1 < ·.1)) (hm : (line, next) ∈ shifts) (shift : Int) :
    shiftAfter line shift shifts = next := by
  induction shifts generalizing shift with
  | nil => cases hm
  | cons entry r ih =>
    obtain ⟨hfirst, hr⟩ := List.pairwise_cons.mp h
    rw [shiftAfter]
    rcases List.mem_cons.mp hm with rfl | hm
    · rw [if_pos (Nat.le_refl line)]
      cases r with
      | nil => rfl
      | cons later r => rw [shiftAfter, if_neg (Nat.not_le_of_lt (hfirst later List.mem_cons_self))]
    · rw [if_pos (Nat.le_of_lt (hfirst _ hm)), ih hr hm]

theorem foldl_record_ordered (records : List (Nat × Int)) {o : LineShifts} (h : o.Ordered) :
    (records.foldl (fun o (line, delta) => o.record line delta) o).Ordered := by
  induction records generalizing o with
  | nil => exact h
  | cons r rest ih => exact ih (h.record r.1 r.2)

theorem movedBy_cons (line : Nat) (delta : Int) (records : List (Nat × Int)) (other : Nat) :
    movedBy ((line, delta) :: records) other =
      (if line < other then delta else 0) + movedBy records other := by
  unfold movedBy
  rw [List.filter_cons]
  split
  next h => rw [if_pos (of_decide_eq_true h), List.map_cons, List.sum_cons]
  next h => rw [if_neg fun hlt => h (decide_eq_true hlt), Int.zero_add]

theorem shiftOf_foldl_record (records : List (Nat × Int)) (o : LineShifts) (line : Nat) :
    (records.foldl (fun o (line, delta) => o.record line delta) o).shiftOf line =
      o.shiftOf line + movedBy records line := by
  induction records generalizing o with
  | nil => exact (Int.add_zero _).symm
  | cons r rest ih =>
    obtain ⟨after, delta⟩ := r
    rw [List.foldl_cons, ih, movedBy_cons]
    by_cases hlt : after < line
    · rw [shiftOf_record_of_lt o hlt, if_pos hlt, Int.add_assoc]
    · rw [shiftOf_record_of_le o (Nat.le_of_not_lt hlt), if_neg hlt, Int.zero_add]

/-- Records may be made in any order, several for a line, and for lines added as well as removed.
The entries stay in order, each holds the sum of all records that move its line, and each line stands
where these put it, though never before the first. -/
theorem current_ofRecords (records : List (Nat × Int)) :
    (ofRecords records).Ordered ∧
      (∀ entry ∈ (ofRecords records).shifts, entry.2 = movedBy records entry.1) ∧
      ∀ line : Nat, ((ofRecords records).current line : Int) =
        max 1 (line + movedBy records line) := by
  have hordered : (ofRecords records).Ordered := foldl_record_ordered records List.Pairwise.nil
  have hshift (line : Nat) : (ofRecords records).shiftOf line = movedBy records line :=
    (shiftOf_foldl_record records .empty line).trans (Int.zero_add _)
  refine ⟨hordered, ?_, ?_⟩
  · intro entry he
    rw [← hshift, shiftOf_eq_shiftAfter]
    exact (shiftAfter_of_mem hordered he 0).symm
  · intro line
    rw [← hshift]
    unfold LineShifts.current
    omega

end Blueprint.LineShifts
