import Blueprint.Fix.Engine
import Blueprint.Proofs.LineRepairs

/-!
What a repair does to the lines of a file as a whole: it puts lines behind the line of its problem,
or takes lines away from there upwards, or leaves their number as it is.
-/

namespace Blueprint

section Moved

variable {α : Type}

/-- A list in which the entries after `index` have moved by `delta`: to make room for new ones, or
into the place of the last ones up to `index`. -/
def moved (index : Nat) (delta : Int) (new : α) (xs : List α) : List α :=
  xs.take (index + 1 - (-delta).toNat) ++ (List.replicate delta.toNat new ++ xs.drop (index + 1))

theorem moved_zero (index : Nat) (new : α) (xs : List α) : moved index 0 new xs = xs := by
  unfold moved
  show xs.take (index + 1) ++ ([] ++ xs.drop (index + 1)) = xs
  rw [List.nil_append, List.take_append_drop]

variable {index : Nat} {delta : Int} {new : α} {xs : List α}

theorem length_moved (hi : index < xs.length) (hd : 0 ≤ index + 1 + delta) :
    ((moved index delta new xs).length : Int) = xs.length + delta := by
  unfold moved
  simp only [List.length_append, List.length_take, List.length_replicate, List.length_drop]
  omega

theorem getElem?_moved_of_gt (hi : index < xs.length) (hd : 0 ≤ index + 1 + delta) {i j : Nat}
    (hlt : index < i) (hj : (j : Int) = i + delta) : (moved index delta new xs)[j]? = xs[i]? := by
  unfold moved
  have htake : (xs.take (index + 1 - (-delta).toNat)).length = index + 1 - (-delta).toNat := by
    rw [List.length_take]
    omega
  rw [List.getElem?_append_right (by omega), List.getElem?_append_right (by
    rw [List.length_replicate]; omega), List.getElem?_drop]
  congr 1
  rw [htake, List.length_replicate]
  omega

theorem getElem?_moved_self (hd : 0 ≤ delta) (hi : index < xs.length) :
    (moved index delta new xs)[index]? = xs[index]? := by
  unfold moved
  have hnone : (-delta).toNat = 0 := by omega
  rw [hnone, List.getElem?_append_left (by rw [List.length_take]; omega), List.getElem?_take,
    if_pos (by omega)]

/-- When entries are removed, those that stay stood elsewhere than at the index. -/
theorem mem_moved_of_neg (hd : delta < 0) {x : α} (h : x ∈ moved index delta new xs) :
    ∃ i, i ≠ index ∧ xs[i]? = some x := by
  unfold moved at h
  have hnone : delta.toNat = 0 := by omega
  rw [hnone, List.replicate_zero, List.nil_append, List.mem_append] at h
  rcases h with h | h
  · obtain ⟨i, hi⟩ := List.mem_iff_getElem?.mp h
    rw [List.getElem?_take] at hi
    split at hi
    · exact ⟨i, by omega, hi⟩
    · cases hi
  · obtain ⟨i, hi⟩ := List.mem_iff_getElem?.mp h
    rw [List.getElem?_drop] at hi
    exact ⟨index + 1 + i, by omega, hi⟩

theorem filterMap_moved_sublist (xs : List (Option α)) :
    ((moved index delta none xs).filterMap id).Sublist (xs.filterMap id) := by
  unfold moved
  have hnew : (List.replicate delta.toNat (none : Option α)).filterMap id = [] := by
    apply List.filterMap_eq_nil_iff.mpr
    intro x hx
    rw [List.eq_of_mem_replicate hx]
    rfl
  rw [List.filterMap_append, List.filterMap_append, hnew, List.nil_append, ← List.filterMap_append]
  apply List.Sublist.filterMap
  have htake : (xs.take (index + 1 - (-delta).toNat)).Sublist (xs.take (index + 1)) :=
    List.take_sublist_take_left (Nat.sub_le _ _)
  have happend := htake.append (List.Sublist.refl (xs.drop (index + 1)))
  rwa [List.take_append_drop] at happend

end Moved

namespace FileLines

/-- The lines are the same apart from the one at `index` and from indentation. -/
structure Rewrites (index : Nat) (lines new : FileLines) : Prop where
  length : new.length = lines.length
  others : ∀ (i : Nat) (line : List Char), i ≠ index → lines[i]? = some line →
    new[i]? = some line ∨ ∃ indent, new[i]? = some (indented indent line)

/-- A repair at `index` that makes the file longer by `delta`: the lines move and stay the same, apart
from the one at `index` and from indentation. -/
structure Edits (index : Nat) (delta : Int) (lines new : FileLines) : Prop where
  bound : 0 ≤ index + 1 + delta
  lines : ∃ label, Rewrites index (moved index delta label lines) new

variable {lines new : FileLines} {index : Nat} {delta : Int}

theorem Rewrites.refl (index : Nat) (lines : FileLines) : Rewrites index lines lines :=
  ⟨rfl, fun _ _ _ h => Or.inl h⟩

theorem Rewrites.edits (h : Rewrites index lines new) : Edits index 0 lines new :=
  ⟨by omega, [], by rw [moved_zero]; exact h⟩

theorem set_edits (line : List Char) : Edits index 0 lines (lines.set index line) := by
  refine Rewrites.edits ⟨List.length_set, ?_⟩
  intro i old hne h
  left
  rw [List.getElem?_set_ne (Ne.symm hne), h]

theorem mapContent_edits {f : List Char → List Char}
    (h : lines.mapContent f index = some (new, delta)) : Edits index delta lines new := by
  obtain ⟨line, -, -, rfl, rfl⟩ := mapContent_eq_some.mp h
  exact set_edits _

theorem endWithFeed_edits (h : lines.endWithFeed index = some (new, delta)) :
    Edits index delta lines new := by
  obtain ⟨r, -, rfl, rfl⟩ := endWithFeed_eq_some.mp h
  exact set_edits _

theorem removeBlank_edits {message : String}
    (h : lines.removeBlank message index = some (new, delta)) : Edits index delta lines new := by
  unfold removeBlank at h
  obtain ⟨excess, _, h⟩ := Option.bind_eq_some_iff.mp h
  dsimp only at h
  have hrun : ((lines.take (index + 1)).reverse.takeWhile isBlankLine).length ≤ index + 1 := by
    have hprefix := (List.takeWhile_prefix isBlankLine (l := (lines.take (index + 1)).reverse))
    have hlength := hprefix.length_le
    rw [List.length_reverse, List.length_take] at hlength
    omega
  generalize hcount : min ((lines.take (index + 1)).reverse.takeWhile isBlankLine).length excess =
    count at h
  split at h
  · cases h
  · cases h
    refine ⟨by omega, [], ?_⟩
    unfold moved
    have hgone : (-(-(count : Int))).toNat = count := by omega
    have hnone : (-(count : Int)).toNat = 0 := by omega
    rw [hgone, hnone]
    exact .refl index _

theorem insertLabel_edits {name : String} (h : lines.insertLabel name index = some (new, delta)) :
    Edits index delta lines new := by
  obtain ⟨line, indent, -, -, rfl, rfl⟩ := insertLabel_eq_some h
  exact ⟨by omega, _, .refl index _⟩

theorem indentFrom_line (skip : Nat) (indents : List Nat) (lines : FileLines) :
    (indentFrom skip indents lines).length = lines.length ∧
      ∀ (i : Nat) (line : List Char), lines[i]? = some line →
        (indentFrom skip indents lines)[i]? = some line ∨ hasContent (content line) = true ∧
          ∃ indent, (indentFrom skip indents lines)[i]? = some (indented indent line) := by
  induction lines generalizing skip indents with
  | nil => exact ⟨rfl, fun i line h => by cases h⟩
  | cons first r ih =>
    rw [indentFrom]
    split
    next hcontent =>
      obtain ⟨hlength, hrest⟩ := ih (skip - 1) indents.tail
      refine ⟨by rw [List.length_cons, List.length_cons, hlength], ?_⟩
      intro i line h
      cases i with
      | zero =>
        cases Option.some.inj h
        split
        · exact Or.inr ⟨hcontent, _, rfl⟩
        · exact Or.inl rfl
      | succ i => exact hrest i line h
    · obtain ⟨hlength, hrest⟩ := ih (skip - 1) indents
      refine ⟨by rw [List.length_cons, List.length_cons, hlength], ?_⟩
      intro i line h
      cases i with
      | zero => exact Or.inl h
      | succ i => exact hrest i line h

theorem reindent_edits (h : lines.reindent? index = some (some (new, delta))) :
    Edits index delta lines new := by
  unfold reindent? at h
  obtain ⟨indents, _, h⟩ := Option.map_eq_some_iff.mp h
  dsimp only at h
  split at h
  · cases h
  · cases h
    obtain ⟨hlength, hlines⟩ := indentFrom_line index indents lines
    exact Rewrites.edits ⟨hlength, fun i line _ h => (hlines i line h).imp_right And.right⟩

end FileLines

open FileLines in
/-- Every repair moves the lines by what it reports. -/
theorem Fix.apply_edits {p : Problem} {lines new : FileLines} {index : Nat} {delta : Int}
    (h : Fix.apply p lines index = some (some (new, delta))) :
    index < lines.length ∧ Edits index delta lines new := by
  unfold Fix.apply at h
  split at h
  · cases h
  next hlt =>
    refine ⟨Nat.lt_of_not_le hlt, ?_⟩
    split at h
    · exact mapContent_edits (Option.some.inj h)
    · exact insertLabel_edits (Option.some.inj h)
    · unfold Fix.ofRule at h
      split at h
      · exact mapContent_edits (Option.some.inj h)
      · exact mapContent_edits (Option.some.inj h)
      · exact mapContent_edits (Option.some.inj h)
      · exact mapContent_edits (Option.some.inj h)
      · exact mapContent_edits (Option.some.inj h)
      · exact mapContent_edits (Option.some.inj h)
      · exact removeBlank_edits (Option.some.inj h)
      · exact endWithFeed_edits (Option.some.inj h)
      · exact reindent_edits h
      · cases h

end Blueprint
