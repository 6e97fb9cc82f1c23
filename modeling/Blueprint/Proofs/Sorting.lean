import Blueprint.Table

/-!
Sorting loses nothing and puts the keys in order.
-/

namespace Blueprint

variable {α : Type}

theorem insertSorted_perm (before : α → α → Bool) (x : α) (xs : List α) :
    (insertSorted before x xs).Perm (x :: xs) := by
  induction xs with
  | nil => exact List.Perm.refl _
  | cons y ys ih =>
    rw [insertSorted]
    split
    · exact List.Perm.refl _
    · exact (ih.cons y).trans (List.Perm.swap x y ys)

theorem sortBy_perm (before : α → α → Bool) (xs : List α) : (sortBy before xs).Perm xs := by
  have key (sorted : List α) :
      (xs.foldl (fun sorted x => insertSorted before x sorted) sorted).Perm (sorted ++ xs) := by
    induction xs generalizing sorted with
    | nil => simp
    | cons x xs ih =>
      have hx := (insertSorted_perm before x sorted).append_right xs
      exact (ih _).trans (hx.trans List.perm_middle.symm)
  exact key []

/-- A strict order in which being apart is transitive. -/
structure StrictOrder (before : α → α → Bool) : Prop where
  asymm : ∀ {x y}, before x y = true → before y x = false
  apart : ∀ {x y z}, before x y = true → before z y = false → before x z = true

section Order

variable {before : α → α → Bool} (hbefore : StrictOrder before)

theorem StrictOrder.ofKey (key : α → Nat) : StrictOrder fun a b => decide (key a < key b) where
  asymm h := by
    simp only [decide_eq_true_eq, decide_eq_false_iff_not] at h ⊢
    omega
  apart h h' := by
    simp only [decide_eq_true_eq, decide_eq_false_iff_not] at h h' ⊢
    omega

include hbefore

theorem insertSorted_pairwise (x : α) {xs : List α}
    (h : xs.Pairwise fun a b => before b a = false) :
    (insertSorted before x xs).Pairwise fun a b => before b a = false := by
  induction xs with
  | nil => exact List.pairwise_singleton _ x
  | cons y ys ih =>
    obtain ⟨hy, hys⟩ := List.pairwise_cons.mp h
    rw [insertSorted]
    split
    next hlt =>
      refine List.pairwise_cons.mpr ⟨?_, h⟩
      intro z hz
      rcases List.mem_cons.mp hz with rfl | hz
      · exact hbefore.asymm hlt
      · exact hbefore.asymm (hbefore.apart hlt (hy z hz))
    next hge =>
      refine List.pairwise_cons.mpr ⟨?_, ih hys⟩
      intro z hz
      rcases List.mem_cons.mp ((insertSorted_perm _ x ys).mem_iff.mp hz) with rfl | hz
      · exact Bool.eq_false_iff.mpr hge
      · exact hy z hz

theorem foldl_insertSorted_pairwise (xs : List α) {sorted : List α}
    (h : sorted.Pairwise fun a b => before b a = false) :
    (xs.foldl (fun sorted x => insertSorted before x sorted) sorted).Pairwise
      fun a b => before b a = false := by
  induction xs generalizing sorted with
  | nil => exact h
  | cons x xs ih => exact ih (insertSorted_pairwise hbefore x h)

omit hbefore in
theorem insertSorted_of_before {x : α} {xs : List α} (h : ∀ y ∈ xs, before x y = true) :
    insertSorted before x xs = x :: xs := by
  cases xs with
  | nil => rfl
  | cons y ys => rw [insertSorted, if_pos (h y List.mem_cons_self)]

omit hbefore in
theorem insertSorted_of_not_before {x : α} {xs : List α} (h : ∀ y ∈ xs, before x y = false) :
    insertSorted before x xs = xs ++ [x] := by
  induction xs with
  | nil => rfl
  | cons y ys ih =>
    rw [insertSorted, h y List.mem_cons_self, if_neg Bool.false_ne_true,
      ih fun z hz => h z (List.mem_cons_of_mem y hz), List.cons_append]

omit hbefore in
/-- Elements none of which comes before another keep their order. -/
theorem sortBy_of_not_before {xs : List α} (h : ∀ x ∈ xs, ∀ y ∈ xs, before x y = false) :
    sortBy before xs = xs := by
  have main (rest sorted : List α) (hall : sorted ++ rest = xs) :
      rest.foldl (fun sorted x => insertSorted before x sorted) sorted = xs := by
    induction rest generalizing sorted with
    | nil => simpa using hall
    | cons x rest ih =>
      have hx : x ∈ xs := hall ▸ List.mem_append_right sorted List.mem_cons_self
      have hlast := insertSorted_of_not_before fun y hy =>
        h x hx y (hall ▸ List.mem_append_left (x :: rest) hy)
      rw [List.foldl_cons, hlast]
      exact ih (sorted ++ [x]) (by rw [← hall, List.append_assoc, List.singleton_append])
  exact main xs [] rfl

/-- Inserting into a sorted list and leaving elements out of it are independent. -/
theorem insertSorted_filter (p : α → Bool) (x : α) {xs : List α}
    (h : xs.Pairwise fun a b => before b a = false) :
    (insertSorted before x xs).filter p =
      if p x then insertSorted before x (xs.filter p) else xs.filter p := by
  induction xs with
  | nil => cases hx : p x <;> simp [insertSorted, hx]
  | cons y ys ih =>
    obtain ⟨hy, hys⟩ := List.pairwise_cons.mp h
    rw [insertSorted]
    split
    next hlt =>
      have hall : ∀ z ∈ (y :: ys).filter p, before x z = true := by
        intro z hz
        rcases List.mem_cons.mp (List.mem_filter.mp hz).1 with rfl | hz
        · exact hlt
        · exact hbefore.apart hlt (hy z hz)
      rw [insertSorted_of_before hall, List.filter_cons]
    next hge =>
      rw [List.filter_cons, ih hys, List.filter_cons]
      cases hx : p x with
      | false => rfl
      | true =>
        cases hp : p y with
        | false => rfl
        | true =>
          show y :: insertSorted before x (ys.filter p) = insertSorted before x (y :: ys.filter p)
          rw [insertSorted, if_neg hge]

/-- Sorting and leaving elements out are independent. -/
theorem sortBy_filter (p : α → Bool) (xs : List α) :
    (sortBy before xs).filter p = sortBy before (xs.filter p) := by
  have main (sorted : List α) (h : sorted.Pairwise fun a b => before b a = false) :
      (xs.foldl (fun sorted x => insertSorted before x sorted) sorted).filter p =
        (xs.filter p).foldl (fun sorted x => insertSorted before x sorted) (sorted.filter p) := by
    induction xs generalizing sorted with
    | nil => rfl
    | cons x xs ih =>
      rw [List.foldl_cons, ih _ (insertSorted_pairwise hbefore x h),
        insertSorted_filter hbefore p x h, List.filter_cons]
      cases hx : p x <;> rfl
  exact main [] List.Pairwise.nil

end Order

theorem sortBy_pairwise (key : α → Nat) (xs : List α) :
    (sortBy (fun a b => key a < key b) xs).Pairwise (key · ≤ key ·) := by
  have hsorted : (sortBy (fun a b => key a < key b) xs).Pairwise
      fun a b => decide (key b < key a) = false :=
    foldl_insertSorted_pairwise (.ofKey key) xs List.Pairwise.nil
  exact hsorted.imp fun h => Nat.le_of_not_lt (of_decide_eq_false h)

end Blueprint
