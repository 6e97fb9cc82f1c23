import Blueprint.Files

/-!
A file that holds a text can be written again at its path, and then holds the new text there.
-/

namespace Blueprint

theorem Table.lookup_insertEntry {α : Type} (key other : String) (value : α)
    (entries : List (String × α)) :
    (insertEntry key value entries).lookup other =
      if other = key then some value else entries.lookup other := by
  have hcons : ∀ (k : String) (v : α) (r : List (String × α)),
      ((k, v) :: r).lookup other = if other = k then some v else r.lookup other := by
    intro k v r
    rw [List.lookup_cons]
    by_cases h : other = k
    · rw [if_pos h, beq_iff_eq.mpr h]
    · rw [if_neg h, beq_eq_false_iff_ne.mpr h]
  induction entries with
  | nil => rw [insertEntry, hcons]
  | cons entry r ih =>
    obtain ⟨k, v⟩ := entry
    rw [insertEntry]
    split
    next hk =>
      subst hk
      rw [hcons, hcons]
      split <;> rfl
    next hk =>
      split
      · rw [hcons]
      · rw [hcons, hcons, ih]
        by_cases h : other = k
        · rw [if_pos h, if_pos h, if_neg fun hkey => hk (hkey.symm.trans h)]
        · rw [if_neg h, if_neg h]

namespace Files

variable {fs fs' : Files} {path : String} {place : List String} {text new : String}

theorem walk_congr (h : ∀ place, fs'.isDirectory place = fs.isDirectory place)
    (place names : List String) : fs'.walk place names = fs.walk place names := by
  induction names generalizing place with
  | nil => rfl
  | cons name r ih => rw [walk, walk, h, ih]

theorem find?_of_read? (h : fs.read? path = some text) :
    ∃ place, fs.find? path = some (place, .text text) := by
  unfold read? at h
  split at h
  next place content hfind =>
    cases h
    exact ⟨place, hfind⟩
  · cases h

/-- What it takes for a path to lead to an entry. -/
theorem find?_eq_some {entry : FileEntry} : fs.find? path = some (place, entry) ↔
    path ≠ "" ∧ fs.walk (start path) (names path) = some place ∧ fs.entry? place = some entry ∧
      (wantsDirectory path = true → entry = .directory) := by
  unfold find?
  by_cases hpath : path = ""
  · simp [hpath]
  · by_cases hwants : wantsDirectory path = true
    · simp [hpath, hwants, Option.bind_eq_some_iff]
      grind
    · simp [hpath, hwants, Option.bind_eq_some_iff]

theorem isFixed_of_text (h : fs.entry? place = some (.text text)) : isFixed place = false := by
  unfold entry? at h
  split at h
  · cases h
  next hfixed => exact Bool.eq_false_iff.mpr hfixed

theorem isDirectory_addEntry (h : fs.entry? place = some (.text text)) (other : List String) :
    (fs.addEntry place (.text new)).isDirectory other = fs.isDirectory other := by
  have hold : fs.entries.get? (key place) = some (.text text) := by
    unfold entry? at h
    rwa [isFixed_of_text h, if_neg Bool.false_ne_true] at h
  unfold isDirectory entry? addEntry Table.insert Table.get?
  split
  · rfl
  · rw [Table.lookup_insertEntry]
    split
    next hkey =>
      rw [hkey]
      unfold Table.get? at hold
      rw [hold]
      rfl
    · rfl

/-- A file that holds a text takes a new one. -/
theorem write?_of_read? (h : fs.read? path = some text) (new : String) :
    ∃ fs', fs.write? path new = some fs' ∧ fs'.read? path = some new := by
  obtain ⟨place, hfind⟩ := find?_of_read? h
  obtain ⟨hpath, hwalk, hentry, hwants⟩ := find?_eq_some.mp hfind
  have hnew : entry? (fs.addEntry place (.text new)) place = some (.text new) := by
    unfold entry?
    rw [isFixed_of_text hentry, if_neg Bool.false_ne_true]
    unfold addEntry Table.insert Table.get?
    rw [Table.lookup_insertEntry, if_pos rfl]
  have hagain : (fs.addEntry place (.text new)).find? path = some (place, .text new) := by
    apply find?_eq_some.mpr
    refine ⟨hpath, ?_, hnew, fun h => absurd (hwants h) (by intro heq; cases heq)⟩
    rw [walk_congr (isDirectory_addEntry hentry)]
    exact hwalk
  refine ⟨fs.addEntry place (.text new), ?_, ?_⟩
  · unfold write?
    rw [hfind]
  · unfold read?
    rw [hagain]

end Files

end Blueprint
