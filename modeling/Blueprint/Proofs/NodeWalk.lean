import Mathlib.Algebra.Order.BigOperators.Group.List
import Mathlib.Algebra.Order.Group.Nat
import Mathlib.Algebra.GroupWithZero.Nat
import Blueprint.Document.Walk

/-!
The walk through a tree. The stack of the nodes that wait hands out what the recursive traversal
lists: every place of the tree once, a collection before its parts and each part before the next.
-/

namespace Blueprint

namespace Node

mutual

/-- The visits of a node and of all in it: a collection, then its parts from the first to the last,
each with all that is in it. -/
def walkFrom (keyNode : Option Node) (path : List PathStep) : Node → List NodeVisit
  | scalar start stop text style textTag =>
    [⟨scalar start stop text style textTag, keyNode, path⟩]
  | .alias start stop target => [⟨.alias start stop target, keyNode, path⟩]
  | sequence start stop flow items =>
    ⟨sequence start stop flow items, keyNode, path⟩ :: walkItems path 0 items
  | mapping start stop flow entries =>
    ⟨mapping start stop flow entries, keyNode, path⟩ :: walkEntries path entries

def walkItems (path : List PathStep) (index : Nat) : List Node → List NodeVisit
  | [] => []
  | n :: r => walkFrom none (path ++ [.index index]) n ++ walkItems path (index + 1) r

/-- A key is visited with the path of its mapping, a value with its key. -/
def walkEntries (path : List PathStep) : List (Node × Node) → List NodeVisit
  | [] => []
  | (k, v) :: r =>
    walkFrom none path k ++ walkFrom (some k) (path ++ [.key k.keyName]) v ++ walkEntries path r

end

end Node

namespace NodeVisit

/-- The visits of the parts of a collection; a scalar and an alias have none. -/
def parts (v : NodeVisit) : List NodeVisit :=
  match v.node with
  | .mapping _ _ _ entries =>
    entries.flatMap fun (k, n) => [ofKey v.path k, ofValue v.path k n]
  | .sequence _ _ _ items => items.zipIdx.map fun (n, i) => ofItem v.path n i
  | .scalar .. | .alias .. => []

/-- The visit of the node at a place: the place tells which part to take at each level. -/
def at? (v : NodeVisit) : List Nat → Option NodeVisit
  | [] => some v
  | i :: place => v.parts[i]?.bind (at? · place)

def count (v : NodeVisit) : Nat :=
  v.node.count

def walk (v : NodeVisit) : List NodeVisit :=
  v.node.walkFrom v.keyNode v.path

end NodeVisit

namespace Node

theorem countItems_eq (path : List PathStep) (items : List Node) (index : Nat) :
    countItems items =
      (((items.zipIdx index).map fun (n, i) => NodeVisit.ofItem path n i).map (·.count)).sum := by
  induction items generalizing index with
  | nil => rfl
  | cons n r ih =>
    rw [countItems, ih (index + 1)]
    rfl

theorem countEntries_eq (path : List PathStep) (entries : List (Node × Node)) :
    countEntries entries =
      ((entries.flatMap fun (k, n) =>
        [NodeVisit.ofKey path k, NodeVisit.ofValue path k n]).map (·.count)).sum := by
  induction entries with
  | nil => rfl
  | cons entry r ih =>
    rw [countEntries, ih, Nat.add_assoc]
    rfl

theorem walkItems_eq (path : List PathStep) (items : List Node) (index : Nat) :
    walkItems path index items =
      ((items.zipIdx index).map fun (n, i) => NodeVisit.ofItem path n i).flatMap (·.walk) := by
  induction items generalizing index with
  | nil => rfl
  | cons n r ih =>
    rw [walkItems, ih (index + 1)]
    rfl

theorem walkEntries_eq (path : List PathStep) (entries : List (Node × Node)) :
    walkEntries path entries =
      (entries.flatMap fun (k, n) =>
        [NodeVisit.ofKey path k, NodeVisit.ofValue path k n]).flatMap (·.walk) := by
  induction entries with
  | nil => rfl
  | cons entry r ih =>
    rw [walkEntries, ih, List.append_assoc]
    rfl

end Node

namespace NodeVisit

variable {v : NodeVisit}

theorem count_eq (v : NodeVisit) : v.count = (v.parts.map (·.count)).sum + 1 := by
  obtain ⟨n, keyNode, path⟩ := v
  cases n with
  | scalar | «alias» => rfl
  | sequence start stop flow items => exact congrArg (· + 1) (Node.countItems_eq path items 0)
  | mapping start stop flow entries => exact congrArg (· + 1) (Node.countEntries_eq path entries)

theorem walk_eq (v : NodeVisit) : v.walk = v :: v.parts.flatMap (·.walk) := by
  obtain ⟨n, keyNode, path⟩ := v
  cases n with
  | scalar | «alias» => rfl
  | sequence start stop flow items => exact congrArg _ (Node.walkItems_eq path items 0)
  | mapping start stop flow entries => exact congrArg _ (Node.walkEntries_eq path entries)

/-- What holds of a visit if it holds of all its parts holds of every visit. -/
theorem parts_induction {P : NodeVisit → Prop} (h : ∀ v, (∀ u ∈ v.parts, P u) → P v)
    (v : NodeVisit) : P v := by
  induction hn : v.count using Nat.strongRecOn generalizing v with
  | ind n ih =>
    refine h v fun u hu => ih u.count ?_ u rfl
    have hle : u.count ≤ (v.parts.map (·.count)).sum :=
      List.le_sum_of_mem (List.mem_map_of_mem hu)
    have := count_eq v
    omega

theorem walk_length (v : NodeVisit) : v.walk.length = v.count := by
  induction v using parts_induction with
  | h v ih =>
    rw [walk_eq, count_eq, List.length_cons, List.length_flatMap, List.map_congr_left ih]

end NodeVisit

namespace NodeStream

theorem push_eq (v : NodeVisit) (pending : List NodeVisit) :
    push v pending = v.parts ++ pending := by
  obtain ⟨n, keyNode, path⟩ := v
  cases n with
  | scalar | «alias» => rfl
  | sequence start stop flow items =>
    show items.zipIdx.foldr _ pending = items.zipIdx.map _ ++ pending
    induction items.zipIdx with
    | nil => rfl
    | cons item r ih => exact congrArg _ ih
  | mapping start stop flow entries =>
    show entries.foldr _ pending = entries.flatMap _ ++ pending
    induction entries with
    | nil => rfl
    | cons entry r ih => exact congrArg _ (congrArg _ ih)

/-- The stack hands out what waits, each visit with all below it. -/
theorem yields_pending (pending : List NodeVisit) :
    Yields next? ⟨pending⟩ (pending.flatMap (·.walk)) := by
  induction hn : (pending.map (·.count)).sum using Nat.strongRecOn generalizing pending with
  | ind n ih =>
    cases pending with
    | nil => exact .done rfl
    | cons v pending =>
      have hless : ((v.parts ++ pending).map (·.count)).sum < n := by
        have := v.count_eq
        rw [List.map_cons, List.sum_cons] at hn
        rw [List.map_append, List.sum_append]
        omega
      have hlater := ih _ hless (v.parts ++ pending) rfl
      rw [List.flatMap_append, ← push_eq] at hlater
      rw [List.flatMap_cons, v.walk_eq, List.cons_append]
      exact .step rfl hlater

theorem yields_walk (root : Node) : Yields next? (ofRoot root) (root.walkFrom none []) := by
  have h := yields_pending [⟨root, none, []⟩]
  rwa [List.flatMap_singleton] at h

end NodeStream

theorem Node.walk_eq (n : Node) : n.walk = n.walkFrom none [] :=
  (NodeStream.yields_walk n).drain_eq (NodeVisit.walk_length ⟨n, none, []⟩).le

/-! The places of a tree. -/

namespace NodeVisit

/-- The visit at a place below some visits: the place starts with the number of one of them. -/
def below? (us : List NodeVisit) : List Nat → Option NodeVisit
  | [] => none
  | i :: place => us[i]?.bind (at? · place)

/-- All places at which something is found, in lexicographic order. -/
structure AreAll (find? : List Nat → Option NodeVisit) (places : List (List Nat)) : Prop where
  sorted : places.Pairwise (· < ·)
  mem_iff : ∀ place, place ∈ places ↔ (find? place).isSome = true

/-- The same place one part further on. -/
def shift : List Nat → List Nat
  | [] => []
  | i :: place => (i + 1) :: place

theorem shift_lt : {place other : List Nat} → place < other → shift place < shift other
  | [], _ :: _, _ => List.nil_lt_cons _ _
  | _ :: _, _ :: _, h => by
    rw [List.cons_lt_cons_iff] at h
    rw [shift, shift, List.cons_lt_cons_iff, Nat.add_lt_add_iff_right, Nat.add_right_cancel_iff]
    exact h

theorem below?_shift (u : NodeVisit) (us : List NodeVisit) (place : List Nat) :
    below? (u :: us) (shift place) = below? us place := by
  cases place <;> rfl

theorem areAll_cons {u : NodeVisit} {us : List NodeVisit} {places later : List (List Nat)}
    (hplaces : AreAll u.at? places) (hlater : AreAll (below? us) later) :
    AreAll (below? (u :: us)) (places.map (0 :: ·) ++ later.map shift) := by
  have hcons : ∀ place ∈ later, ∃ i inner, place = i :: inner := by
    intro place hplace
    cases place with
    | nil => exact absurd ((hlater.mem_iff []).mp hplace) Bool.false_ne_true
    | cons i inner => exact ⟨i, inner, rfl⟩
  constructor
  · refine List.pairwise_append.mpr ⟨?_, ?_, ?_⟩
    · refine List.pairwise_map.mpr (hplaces.sorted.imp fun h => ?_)
      exact List.cons_lt_cons_iff.mpr (Or.inr ⟨rfl, h⟩)
    · exact List.pairwise_map.mpr (hlater.sorted.imp shift_lt)
    · intro first hfirst second hsecond
      obtain ⟨place, -, rfl⟩ := List.mem_map.mp hfirst
      obtain ⟨other, hother, rfl⟩ := List.mem_map.mp hsecond
      obtain ⟨i, inner, rfl⟩ := hcons other hother
      exact List.cons_lt_cons_iff.mpr (Or.inl (Nat.succ_pos i))
  · intro place
    rw [List.mem_append, List.mem_map, List.mem_map]
    match place with
    | [] =>
      refine iff_of_false ?_ Bool.false_ne_true
      rintro (⟨_, _, h⟩ | ⟨other, hother, h⟩)
      · cases h
      · obtain ⟨i, inner, rfl⟩ := hcons other hother
        cases h
    | 0 :: inner =>
      refine Iff.trans ⟨?_, fun h => Or.inl ⟨inner, h, rfl⟩⟩ (hplaces.mem_iff inner)
      rintro (⟨_, hmem, h⟩ | ⟨other, hother, h⟩)
      · cases h
        exact hmem
      · obtain ⟨i, inner, rfl⟩ := hcons other hother
        cases h
    | (i + 1) :: inner =>
      refine Iff.trans ⟨?_, fun h => Or.inr ⟨i :: inner, h, rfl⟩⟩ (hlater.mem_iff (i :: inner))
      rintro (⟨_, _, h⟩ | ⟨other, hother, h⟩)
      · cases h
      · obtain ⟨j, inner, rfl⟩ := hcons other hother
        cases h
        exact hother

/-- If a walk goes through the places of each of some visits, one after the other, the walks together
go through the places below all of them. -/
theorem exists_below {us : List NodeVisit}
    (h : ∀ u ∈ us, ∃ places, AreAll u.at? places ∧ u.walk.map some = places.map u.at?) :
    ∃ places, AreAll (below? us) places ∧
      (us.flatMap (·.walk)).map some = places.map (below? us) := by
  induction us with
  | nil =>
    refine ⟨[], ⟨List.Pairwise.nil, fun place => ?_⟩, rfl⟩
    cases place <;> exact iff_of_false List.not_mem_nil Bool.false_ne_true
  | cons u us ih =>
    obtain ⟨places, hplaces, hwalk⟩ := h u List.mem_cons_self
    obtain ⟨later, hlater, hwalks⟩ := ih fun w hw => h w (List.mem_cons_of_mem u hw)
    refine ⟨_, areAll_cons hplaces hlater, ?_⟩
    rw [List.flatMap_cons, List.map_append, List.map_append, hwalk, hwalks, List.map_map,
      List.map_map]
    refine congrArg _ (List.map_congr_left fun place _ => ?_)
    exact (below?_shift u us place).symm

/-- A walk goes through the places of a tree in lexicographic order. -/
theorem exists_places (v : NodeVisit) :
    ∃ places, AreAll v.at? places ∧ v.walk.map some = places.map v.at? := by
  induction v using parts_induction with
  | h v ih =>
    obtain ⟨places, hplaces, hwalks⟩ := exists_below ih
    have hcons : ∀ place ∈ places, [] < place ∧ below? v.parts place = v.at? place := by
      intro place hplace
      cases place with
      | nil => exact absurd ((hplaces.mem_iff []).mp hplace) Bool.false_ne_true
      | cons i inner => exact ⟨List.nil_lt_cons i inner, rfl⟩
    refine ⟨[] :: places, ⟨?_, fun place => ?_⟩, ?_⟩
    · exact List.pairwise_cons.mpr ⟨fun place hplace => (hcons place hplace).1, hplaces.sorted⟩
    · cases place with
      | nil => exact iff_of_true List.mem_cons_self rfl
      | cons i inner =>
        rw [List.mem_cons, or_iff_right (List.cons_ne_nil i inner)]
        exact hplaces.mem_iff (i :: inner)
    · rw [walk_eq, List.map_cons, hwalks, List.map_cons]
      exact congrArg _ (List.map_congr_left fun place hplace => (hcons place hplace).2)

end NodeVisit

/-- The walk through a tree comes to an end. It hands out the visits of the recursive traversal, one
for each place of the tree, in the order of the places. -/
theorem NodeStream.visits_each_place (root : Node) :
    Yields next? (ofRoot root) (root.walkFrom none []) ∧ root.walk = root.walkFrom none [] ∧
      ∃ places, NodeVisit.AreAll (NodeVisit.at? ⟨root, none, []⟩) places ∧
        (root.walkFrom none []).map some = places.map (NodeVisit.at? ⟨root, none, []⟩) :=
  ⟨yields_walk root, root.walk_eq, NodeVisit.exists_places ⟨root, none, []⟩⟩

end Blueprint
