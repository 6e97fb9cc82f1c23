import Blueprint.Document.Compose
import Blueprint.Proofs.EventTree

/-!
The nodes that a composition has met, the latest first, each with its anchor; a collection that is
still open is missing. The composition remembers them by the numbers of their anchors, and a name
refers to the latest node with that anchor.
-/

namespace Blueprint

open Yaml (Event EventTree)

/-- The nodes met so far. -/
abbrev Seen := List (Option String × Option Node)

/-- The node that a name refers to, unless it is missing. -/
def Seen.target? (seen : Seen) (name : String) : Option Node :=
  (seen.find? (·.1 = some name)).bind (·.2)

/-- The anchored nodes among them with the numbers of their anchors. -/
def Seen.ledger : Seen → List (String × Nat × Option Node)
  | [] => []
  | (none, _) :: r => ledger r
  | (some name, n) :: r => (name, (ledger r).length, n) :: ledger r

namespace Composition

/-- The composition knows the anchored nodes that have been met. -/
structure Remembers (c : Composition) (seen : Seen) : Prop where
  count : c.anchorCount = seen.ledger.length
  names : c.names = seen.ledger.map fun x => (x.1, x.2.1)
  anchored : ∀ x ∈ seen.ledger, c.anchored.lookup x.2.1 = x.2.2
  fresh : ∀ x ∈ c.anchored, x.1 < c.anchorCount

variable {c c' : Composition} {seen earlier later : Seen} {n : Node}

theorem target_of_ledger {anchored : Nat → Option Node}
    (h : ∀ x ∈ seen.ledger, anchored x.2.1 = x.2.2) (name : String) :
    (((seen.ledger.map fun x => (x.1, x.2.1)).lookup name).bind anchored) = seen.target? name := by
  induction seen with
  | nil => rfl
  | cons x r ih =>
    obtain ⟨anchor, node⟩ := x
    cases anchor with
    | none =>
      rw [Seen.ledger] at h ⊢
      rw [ih h, Seen.target?, Seen.target?, List.find?_cons_of_neg (by simp)]
    | some a =>
      rw [Seen.ledger] at h ⊢
      obtain ⟨hhead, htail⟩ := List.forall_mem_cons.mp h
      by_cases ha : name = a
      · subst ha
        simp [Seen.target?, hhead]
      · rw [List.map_cons, List.lookup_cons, beq_false_of_ne ha, Seen.target?,
          List.find?_cons_of_neg (by simpa using Ne.symm ha)]
        exact ih htail

theorem Remembers.target (h : c.Remembers seen) (name : String) :
    (c.names.lookup name).bind (fun number => c.anchored.lookup number) = seen.target? name := by
  rw [h.names]
  exact target_of_ledger h.anchored name

theorem ledger_number_lt {x : String × Nat × Option Node} (h : x ∈ seen.ledger) :
    x.2.1 < seen.ledger.length := by
  induction seen with
  | nil => cases h
  | cons y r ih =>
    obtain ⟨anchor, node⟩ := y
    cases anchor with
    | none => exact ih h
    | some a =>
      rw [Seen.ledger] at h ⊢
      rcases List.mem_cons.mp h with rfl | h
      · exact Nat.lt_succ_self _
      · exact Nat.lt_succ_of_lt (ih h)

theorem ledger_length_lt (later earlier : Seen) (a : String) (node : Option Node) :
    earlier.ledger.length < (Seen.ledger (later ++ (some a, node) :: earlier)).length := by
  induction later with
  | nil => exact Nat.lt_succ_self _
  | cons y later ih =>
    obtain ⟨b, _⟩ := y
    cases b with
    | none => exact ih
    | some b => exact Nat.lt_succ_of_lt ih

/-- Completing a node changes nothing but what its number stands for. -/
theorem ledger_complete (later earlier : Seen) (anchor : Option String) (n : Node) :
    (Seen.ledger (later ++ (anchor, some n) :: earlier)).map (fun x => (x.1, x.2.1)) =
        (Seen.ledger (later ++ (anchor, none) :: earlier)).map (fun x => (x.1, x.2.1)) ∧
      ∀ x ∈ Seen.ledger (later ++ (anchor, some n) :: earlier),
        (anchor.isSome ∧ x.2.1 = earlier.ledger.length ∧ x.2.2 = some n) ∨
          (x ∈ Seen.ledger (later ++ (anchor, none) :: earlier) ∧
            (anchor.isSome → x.2.1 ≠ earlier.ledger.length)) := by
  induction later with
  | nil =>
    cases anchor with
    | none => exact ⟨rfl, fun x hx => Or.inr ⟨hx, fun h => by cases h⟩⟩
    | some a =>
      refine ⟨rfl, ?_⟩
      intro x hx
      rcases List.mem_cons.mp hx with rfl | hx
      · exact Or.inl ⟨rfl, rfl, rfl⟩
      · exact Or.inr ⟨List.mem_cons_of_mem _ hx, fun _ => Nat.ne_of_lt (ledger_number_lt hx)⟩
  | cons y later ih =>
    obtain ⟨b, node⟩ := y
    obtain ⟨hnames, hmem⟩ := ih
    cases b with
    | none => exact ⟨hnames, hmem⟩
    | some b =>
      have hlength := congrArg List.length hnames
      rw [List.length_map, List.length_map] at hlength
      rw [List.cons_append, Seen.ledger, List.cons_append, Seen.ledger, List.map_cons,
        List.map_cons, hnames, hlength]
      refine ⟨rfl, ?_⟩
      intro x hx
      rcases List.mem_cons.mp hx with rfl | hx
      · refine Or.inr ⟨List.mem_cons_self, ?_⟩
        intro hsome
        obtain ⟨a, rfl⟩ := Option.isSome_iff_exists.mp hsome
        exact Nat.ne_of_gt (ledger_length_lt later earlier a none)
      · rcases hmem x hx with h | ⟨h, hne⟩
        · exact Or.inl h
        · exact Or.inr ⟨List.mem_cons_of_mem _ h, hne⟩

theorem Remembers.number (h : c.Remembers seen) (anchor : Option String) :
    (c.number anchor).1.Remembers ((anchor, none) :: seen) ∧
      (c.number anchor).2 = anchor.map fun _ => seen.ledger.length := by
  cases anchor with
  | none => exact ⟨⟨h.count, h.names, h.anchored, h.fresh⟩, rfl⟩
  | some a =>
    refine ⟨⟨?_, ?_, ?_, ?_⟩, ?_⟩
    · exact congrArg (· + 1) h.count
    · show (a, c.anchorCount) :: c.names = _
      rw [h.count, h.names]
      rfl
    · intro x hx
      rcases List.mem_cons.mp hx with rfl | hx
      · show c.anchored.lookup seen.ledger.length = none
        rw [List.lookup_eq_none_iff]
        intro y hy
        have := h.fresh y hy
        rw [h.count] at this
        simpa using Nat.ne_of_gt this
      · exact h.anchored x hx
    · intro x hx
      exact Nat.lt_succ_of_lt (h.fresh x hx)
    · exact congrArg some h.count

theorem attach_memory (c : Composition) (n : Node) (anchor : Option Nat) :
    (c.attach n anchor).names = c.names ∧ (c.attach n anchor).anchorCount = c.anchorCount ∧
      (c.attach n anchor).anchored = anchor.toList.map (·, n) ++ c.anchored := by
  unfold attach
  cases anchor <;> cases hp : c.pending <;> simp [hp]

/-- A node that is complete can be referred to. -/
theorem Remembers.attach {anchor : Option String}
    (h : c.Remembers (later ++ (anchor, none) :: earlier)) (n : Node) :
    (c.attach n (anchor.map fun _ => earlier.ledger.length)).Remembers
      (later ++ (anchor, some n) :: earlier) := by
  obtain ⟨hnames, hmem⟩ := ledger_complete later earlier anchor n
  obtain ⟨hn, hc, ha⟩ := attach_memory c n (anchor.map fun _ => earlier.ledger.length)
  have hlength := congrArg List.length hnames
  rw [List.length_map, List.length_map] at hlength
  refine ⟨?_, ?_, ?_, ?_⟩
  · rw [hc, hlength, h.count]
  · rw [hn, hnames, h.names]
  · intro x hx
    rw [ha]
    rcases hmem x hx with ⟨hsome, hnumber, hnode⟩ | ⟨hx, hne⟩
    · obtain ⟨a, rfl⟩ := Option.isSome_iff_exists.mp hsome
      rw [hnumber, hnode]
      simp
    · cases anchor with
      | none => exact h.anchored x hx
      | some a =>
        show List.lookup x.2.1 ((earlier.ledger.length, n) :: c.anchored) = x.2.2
        rw [List.lookup_cons, beq_false_of_ne (hne rfl)]
        exact h.anchored x hx
  · intro x hx
    rw [ha] at hx
    rw [hc]
    rcases List.mem_append.mp hx with hx | hx
    · obtain ⟨number, hnumber, rfl⟩ := List.mem_map.mp hx
      obtain ⟨a, rfl, rfl⟩ := Option.map_eq_some_iff.mp (Option.mem_toList.mp hnumber)
      rw [h.count]
      exact ledger_length_lt later earlier a none
    · exact h.fresh x hx

theorem Remembers.attach_head {anchor : Option String}
    (h : c.Remembers ((anchor, none) :: earlier)) (n : Node) :
    (c.attach n (anchor.map fun _ => earlier.ledger.length)).Remembers
      ((anchor, some n) :: earlier) := by
  have h' : c.Remembers ([] ++ (anchor, none) :: earlier) := h
  exact h'.attach n

end Composition

namespace Seen

/-- What is met of a run of nodes that are complete. -/
def records (ts : List EventTree) (ns : List Node) : Seen :=
  (List.zipWith (fun t n => (t.anchor?, some n)) ts ns).reverse

/-- Each alias among the nodes holds the node that its name refers to. -/
def Resolves (seen : Seen) : List EventTree → List Node → Prop
  | [], [] => True
  | t :: ts, n :: ns =>
    (∀ name, t.alias? = some name →
      ∃ start stop target, n = .alias start stop target ∧ seen.target? name = some target) ∧
      Resolves ((t.anchor?, some n) :: seen) ts ns
  | _, _ => False

variable {seen later earlier : Seen} {ts ts' : List EventTree} {ns ns' : List Node}

theorem records_cons (t : EventTree) (ts : List EventTree) (n : Node) (ns : List Node) :
    records (t :: ts) (n :: ns) = records ts ns ++ [(t.anchor?, some n)] := by
  simp [records]

theorem Resolves.length_eq (h : seen.Resolves ts ns) : ts.length = ns.length := by
  induction ts generalizing seen ns with
  | nil =>
    cases ns with
    | nil => rfl
    | cons n ns => cases h
  | cons t ts ih =>
    cases ns with
    | nil => cases h
    | cons n ns => exact congrArg (· + 1) (ih h.2)

theorem records_append (h : ts.length = ns.length) :
    records (ts ++ ts') (ns ++ ns') = records ts' ns' ++ records ts ns := by
  rw [records, List.zipWith_append h, List.reverse_append]
  rfl

theorem Resolves.append (h : seen.Resolves ts ns)
    (h' : Resolves (records ts ns ++ seen) ts' ns') : seen.Resolves (ts ++ ts') (ns ++ ns') := by
  induction ts generalizing seen ns with
  | nil =>
    cases ns with
    | nil => exact h'
    | cons n ns => cases h
  | cons t ts ih =>
    cases ns with
    | nil => cases h
    | cons n ns =>
      rw [records_cons, List.append_assoc] at h'
      exact ⟨h.1, ih h.2 h'⟩

/-- A reference to a complete node is not affected when another node becomes complete. -/
theorem target?_complete {anchor : Option String} {n target : Node} {name : String}
    (h : Seen.target? (later ++ (anchor, none) :: earlier) name = some target) :
    Seen.target? (later ++ (anchor, some n) :: earlier) name = some target := by
  unfold target? at h ⊢
  rw [List.find?_append] at h ⊢
  cases hlater : later.find? (·.1 = some name) with
  | some x =>
    rw [hlater] at h
    exact h
  | none =>
    rw [hlater, Option.none_or] at h
    rw [Option.none_or]
    by_cases ha : anchor = some name
    · rw [List.find?_cons_of_pos (by simpa using ha)] at h
      cases h
    · rw [List.find?_cons_of_neg (by simpa using ha)] at h ⊢
      exact h

theorem Resolves.complete {anchor : Option String} {n : Node}
    (h : Resolves (later ++ (anchor, none) :: earlier) ts ns) :
    Resolves (later ++ (anchor, some n) :: earlier) ts ns := by
  induction ts generalizing later ns with
  | nil =>
    cases ns with
    | nil => trivial
    | cons m ns => cases h
  | cons t ts ih =>
    cases ns with
    | nil => cases h
    | cons m ns =>
      have htail : Resolves (((t.anchor?, some m) :: later) ++ (anchor, none) :: earlier) ts ns :=
        h.2
      refine ⟨?_, ih htail⟩
      intro name hname
      obtain ⟨start, stop, target, hm, htarget⟩ := h.1 name hname
      exact ⟨start, stop, target, hm, target?_complete htarget⟩

/-- Of the nodes `ts` of a document those up to `k` have been met, and the collections among them
that are open reach over the next `n`. -/
structure UpTo (ts : List EventTree) (k n : Nat) (seen : Seen) : Prop where
  length : seen.length = k
  anchors : seen.map (·.1) = ((ts.take k).map EventTree.anchor?).reverse
  around : ∀ j anchor, seen.reverse[j]? = some (anchor, none) →
    ∃ t, ts[j]? = some t ∧ k + n ≤ j + t.nodes.length

theorem UpTo.weaken {ts : List EventTree} {k m n : Nat} {seen : Seen}
    (h : seen.UpTo ts k (m + n)) : seen.UpTo ts k m := by
  refine ⟨h.length, h.anchors, ?_⟩
  intro j anchor hj
  obtain ⟨t, ht, hle⟩ := h.around j anchor hj
  exact ⟨t, ht, by omega⟩

theorem records_anchors (h : ts.length = ns.length) :
    (records ts ns).map (·.1) = (ts.map EventTree.anchor?).reverse := by
  rw [records, List.map_reverse, List.map_zipWith]
  congr 1
  induction ts generalizing ns with
  | nil => rfl
  | cons t ts ih =>
    cases ns with
    | nil => cases h
    | cons n ns => exact congrArg (t.anchor? :: ·) (ih (Nat.succ.inj h))

variable {nodes rest : List EventTree} {k n : Nat}

/-- What comes next has been met. -/
theorem UpTo.extend {new : Seen} (h : seen.UpTo nodes k (ts.length + n))
    (hdrop : nodes.drop k = ts ++ rest)
    (hnew : new.map (·.1) = (ts.map EventTree.anchor?).reverse)
    (hopen : ∀ j anchor, new.reverse[j]? = some (anchor, none) →
      ∃ t, nodes[k + j]? = some t ∧ k + (ts.length + n) ≤ k + j + t.nodes.length) :
    UpTo nodes (k + ts.length) n (new ++ seen) := by
  have hlength : new.length = ts.length := by
    have := congrArg List.length hnew
    simpa using this
  have htake : nodes.take (k + ts.length) = nodes.take k ++ ts := by
    rw [List.take_add, hdrop, List.take_left']
    rfl
  refine ⟨?_, ?_, ?_⟩
  · rw [List.length_append, hlength, h.length, Nat.add_comm]
  · rw [List.map_append, hnew, h.anchors, htake, List.map_append, List.reverse_append]
  · intro j anchor hj
    rw [List.reverse_append] at hj
    by_cases hlt : j < k
    · rw [List.getElem?_append_left (by rw [List.length_reverse, h.length]; exact hlt)] at hj
      obtain ⟨t, ht, hle⟩ := h.around j anchor hj
      exact ⟨t, ht, by omega⟩
    · rw [List.getElem?_append_right (by rw [List.length_reverse, h.length]; omega),
        List.length_reverse, h.length] at hj
      obtain ⟨t, ht, hle⟩ := hopen _ anchor hj
      rw [Nat.add_sub_cancel' (Nat.le_of_not_lt hlt)] at ht hle
      exact ⟨t, ht, by omega⟩

theorem UpTo.records (h : seen.UpTo nodes k (ts.length + n)) (hdrop : nodes.drop k = ts ++ rest)
    (hns : ts.length = ns.length) : UpTo nodes (k + ts.length) n (records ts ns ++ seen) := by
  refine h.extend hdrop (records_anchors hns) ?_
  intro j anchor hj
  rw [Seen.records, List.reverse_reverse] at hj
  obtain ⟨t, m, _, _, heq⟩ := List.getElem?_zipWith_eq_some.mp hj
  cases heq

/-- A collection is opened around the nodes in it. -/
theorem UpTo.enter {t : EventTree} (h : seen.UpTo nodes k t.nodes.length)
    (hdrop : nodes.drop k = t :: rest) (hn : t.nodes.length = n + 1) :
    UpTo nodes (k + 1) n ((t.anchor?, none) :: seen) := by
  rw [hn, Nat.add_comm n 1] at h
  have hget : nodes[k]? = some t := by
    rw [← Nat.add_zero k, ← List.getElem?_drop, hdrop]
    rfl
  have hnew : List.map (·.1) ([(t.anchor?, none)] : Seen) = ([t].map EventTree.anchor?).reverse :=
    rfl
  have hdrop : nodes.drop k = [t] ++ rest := hdrop
  have h : seen.UpTo nodes k ([t].length + n) := h
  refine h.extend hdrop hnew ?_
  intro j anchor hj
  cases j with
  | zero => exact ⟨t, hget, by simp [hn]; omega⟩
  | succ j => cases hj

/-- The anchors are those of the nodes, the latest first. -/
theorem UpTo.anchor (h : seen.UpTo nodes k n) {i : Nat} (hi : i < k) :
    ∃ x, seen[k - 1 - i]? = some x ∧ x.1 = nodes[i]?.bind EventTree.anchor? := by
  have hlength := congrArg List.length h.anchors
  rw [List.length_map, h.length, List.length_reverse, List.length_map, List.length_take] at hlength
  have hget := congrArg (fun l => l[k - 1 - i]?) h.anchors
  have hi' : i < nodes.length := by omega
  rw [List.getElem?_map, List.getElem?_reverse (by rw [List.length_map, List.length_take]; omega),
    List.length_map, List.length_take, ← hlength,
    show k - 1 - (k - 1 - i) = i by omega, List.getElem?_map, List.getElem?_take, if_pos hi,
    List.getElem?_eq_getElem hi', Option.map_some] at hget
  obtain ⟨x, hx, hfst⟩ := Option.map_eq_some_iff.mp hget
  refine ⟨x, hx, ?_⟩
  rw [hfst, List.getElem?_eq_getElem hi']
  rfl

/-- A name refers to the last node with its anchor. -/
theorem UpTo.target (h : seen.UpTo nodes k n) {j : Nat} {name : String}
    (hrefers : EventTree.RefersTo nodes k j)
    (halias : nodes[k]?.bind EventTree.alias? = some name) :
    ∃ node, seen.reverse[j]? = some (some name, node) ∧ seen.target? name = node := by
  obtain ⟨hj, _, hname, hlast⟩ := hrefers
  rw [halias] at hname hlast
  obtain ⟨x, hx, hfst⟩ := h.anchor hj
  obtain ⟨hlt, hget⟩ := List.getElem?_eq_some_iff.mp hx
  have hfind : seen.find? (·.1 = some name) = some x := by
    rw [List.find?_eq_some_iff_getElem]
    refine ⟨by simp [hfst, hname], _, hlt, hget, ?_⟩
    intro i hi
    have hlength := h.length
    obtain ⟨y, hy, hyfst⟩ := h.anchor (i := k - 1 - i) (by omega)
    rw [show k - 1 - (k - 1 - i) = i by omega] at hy
    obtain ⟨_, hy⟩ := List.getElem?_eq_some_iff.mp hy
    have := hlast (k - 1 - i) (by omega) (by omega)
    rw [← hyfst] at this
    simpa [hy] using this
  refine ⟨x.2, ?_, by rw [target?, hfind]; rfl⟩
  rw [List.getElem?_reverse (by rw [h.length]; exact hj), h.length, hx, ← hname, ← hfst]

/-- An alias holds what its name refers to where it stands. -/
theorem Resolves.getElem? (h : seen.Resolves ts ns) {name : String}
    (hk : ts[k]?.bind EventTree.alias? = some name) :
    ∃ start stop target, ns[k]? = some (.alias start stop target) ∧
      Seen.target? (records (ts.take k) (ns.take k) ++ seen) name = some target := by
  induction ts generalizing seen ns k with
  | nil => cases hk
  | cons t ts ih =>
    cases ns with
    | nil => cases h
    | cons m ns =>
      cases k with
      | zero =>
        obtain ⟨start, stop, target, rfl, htarget⟩ := h.1 name hk
        exact ⟨start, stop, target, rfl, htarget⟩
      | succ k =>
        obtain ⟨start, stop, target, hget, htarget⟩ := ih h.2 hk
        refine ⟨start, stop, target, hget, ?_⟩
        rw [List.take_succ_cons, List.take_succ_cons, records_cons, List.append_assoc]
        exact htarget

/-- Among the nodes of a document an alias holds the node that it refers to. -/
theorem Resolves.refersTo (h : Resolves [] nodes ns) {j : Nat}
    (hrefers : EventTree.RefersTo nodes k j) :
    ∃ start stop target, ns[k]? = some (.alias start stop target) ∧ ns[j]? = some target := by
  obtain ⟨name, hname⟩ := Option.isSome_iff_exists.mp hrefers.2.1
  obtain ⟨start, stop, target, hget, htarget⟩ := h.getElem? hname
  have hlength := h.length_eq
  have hk : k < ns.length := (List.getElem?_eq_some_iff.mp hget).1
  have hupTo : Seen.UpTo nodes k 0 (records (nodes.take k) (ns.take k) ++ []) := by
    have hnil : Seen.UpTo nodes 0 ((nodes.take k).length + 0) [] :=
      ⟨rfl, by simp, by intro j anchor hj; simp at hj⟩
    have hdrop : nodes.drop 0 = nodes.take k ++ nodes.drop k := (List.take_append_drop k nodes).symm
    have htake : (nodes.take k).length = (ns.take k).length := by simp [hlength]
    have := hnil.records hdrop htake
    rwa [Nat.zero_add, List.length_take, Nat.min_eq_left (by omega)] at this
  obtain ⟨node, hnode, hfound⟩ := hupTo.target hrefers hname
  rw [htarget] at hfound
  refine ⟨start, stop, target, hget, ?_⟩
  rw [List.append_nil, records, List.reverse_reverse] at hnode
  obtain ⟨_, m, _, hm, heq⟩ := List.getElem?_zipWith_eq_some.mp hnode
  obtain ⟨_, rfl⟩ := Prod.mk.inj heq
  rw [List.getElem?_take, if_pos hrefers.1] at hm
  rw [hm]
  exact hfound.symm

end Seen

end Blueprint
