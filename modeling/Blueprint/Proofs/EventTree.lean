import Blueprint.Proofs.ParserSteps

/-!
The events of a document form a tree. A text that the parser accepts has the events of one tree
between the start and the end of its first document, and an alias in it names an anchor met before.
-/

namespace Blueprint.Yaml

/-- A node as its events write it: a scalar or an alias, or a collection between its start and its
end. -/
inductive EventTree where
  | leaf (event : Event) (single : event.kind.opens? = some [])
  | sequence (start : Event) (opens : start.kind.opens? = some [.item]) (items : List EventTree)
    (stop : Event) (closes : stop.kind = .sequenceEnd)
  | mapping (start : Event) (opens : start.kind.opens? = some [.key])
    (entries : List (EventTree × EventTree)) (stop : Event) (closes : stop.kind = .mappingEnd)

namespace EventTree

/-- The event that starts the node. -/
def start : EventTree → Event
  | leaf e _ | sequence e .. | mapping e .. => e

def isCollection : EventTree → Bool
  | leaf .. => false
  | sequence .. | mapping .. => true

/-- The anchor of the node. -/
def anchor? (t : EventTree) : Option String :=
  t.start.kind.anchor?

/-- The name that the node refers to, if it is an alias. -/
def alias? (t : EventTree) : Option String :=
  match t.start.kind with
  | .alias name => some name
  | _ => none

mutual

/-- The events of a node in their order. -/
def events : EventTree → List Event
  | leaf e _ => [e]
  | sequence start _ items stop _ => start :: (itemEvents items ++ [stop])
  | mapping start _ entries stop _ => start :: (entryEvents entries ++ [stop])

def itemEvents : List EventTree → List Event
  | [] => []
  | t :: r => t.events ++ itemEvents r

def entryEvents : List (EventTree × EventTree) → List Event
  | [] => []
  | (k, v) :: r => k.events ++ (v.events ++ entryEvents r)

end

mutual

/-- A node and the nodes in it, in the order of their starts. -/
def nodes : EventTree → List EventTree
  | leaf e h => [leaf e h]
  | sequence start h items stop h' => sequence start h items stop h' :: itemNodes items
  | mapping start h entries stop h' => mapping start h entries stop h' :: entryNodes entries

def itemNodes : List EventTree → List EventTree
  | [] => []
  | t :: r => t.nodes ++ itemNodes r

def entryNodes : List (EventTree × EventTree) → List EventTree
  | [] => []
  | (k, v) :: r => k.nodes ++ (v.nodes ++ entryNodes r)

end

/-- Among the nodes of a tree the alias at `k` refers to the node at `j`: the last one before it
with the anchor that it names. -/
def RefersTo (nodes : List EventTree) (k j : Nat) : Prop :=
  j < k ∧ (nodes[k]?.bind alias?).isSome ∧ nodes[j]?.bind anchor? = nodes[k]?.bind alias? ∧
    ∀ i < k, j < i → nodes[i]?.bind anchor? ≠ nodes[k]?.bind alias?

instance (nodes : List EventTree) (k j : Nat) : Decidable (RefersTo nodes k j) :=
  inferInstanceAs (Decidable (_ ∧ _ ∧ _ ∧ ∀ i < k, _ → _ ≠ _))

/-- Every alias among the nodes stands behind the node that it refers to, not inside it. -/
def AliasesOutside (ts : List EventTree) : Prop :=
  ∀ k < ts.length, ∀ j < k, RefersTo ts k j → ∀ t ∈ ts[j]?, j + t.nodes.length ≤ k

instance (ts : List EventTree) : Decidable (AliasesOutside ts) :=
  inferInstanceAs (Decidable (∀ k < ts.length, ∀ j < k, RefersTo ts k j → ∀ t ∈ ts[j]?, _ ≤ k))

/-- The events are those of a document with this tree. -/
def IsDocument (t : EventTree) (es : List Event) : Prop :=
  ∃ first last, es = first :: (t.events ++ [last]) ∧ first.kind = .documentStart ∧
    last.kind = .documentEnd

/-- The events that complete the collections in which the slots stand, up to the end of the
document. -/
inductive Completes : List Slot → List Event → Prop where
  | stop {e : Event} {r : List Slot} (h : e.kind = .documentEnd) :
    Completes (.documentEnd :: r) [e]
  | root {t : EventTree} {r : List Slot} {es : List Event} (h : Completes r es) :
    Completes (.root :: r) (t.events ++ es)
  | items {ts : List EventTree} {e : Event} {r : List Slot} {es : List Event}
    (hstop : e.kind = .sequenceEnd) (h : Completes r es) :
    Completes (.item :: r) (itemEvents ts ++ e :: es)
  | entries {ts : List (EventTree × EventTree)} {e : Event} {r : List Slot} {es : List Event}
    (hstop : e.kind = .mappingEnd) (h : Completes r es) :
    Completes (.key :: r) (entryEvents ts ++ e :: es)
  | value {v : EventTree} {ts : List (EventTree × EventTree)} {e : Event} {r : List Slot}
    {es : List Event} (hstop : e.kind = .mappingEnd) (h : Completes r es) :
    Completes (.value :: r) (v.events ++ (entryEvents ts ++ e :: es))

/-- A node that fills a slot stands before what completes the slot after it. -/
theorem Completes.cons {s : Slot} {r : List Slot} {es : List Event} (t : EventTree)
    (hs : s ≠ .documentEnd) (h : Completes (s.next ++ r) es) :
    Completes (s :: r) (t.events ++ es) := by
  cases s with
  | root => exact .root h
  | documentEnd => exact absurd rfl hs
  | item =>
    cases h with
    | @items ts e _ es hstop h =>
      have hcons : itemEvents (t :: ts) ++ e :: es = t.events ++ (itemEvents ts ++ e :: es) := by
        rw [itemEvents, List.append_assoc]
      exact hcons ▸ .items hstop h
  | key =>
    cases h with
    | @value v ts e _ es hstop h =>
      have hcons : entryEvents ((t, v) :: ts) ++ e :: es =
          t.events ++ (v.events ++ (entryEvents ts ++ e :: es)) := by
        rw [entryEvents, List.append_assoc, List.append_assoc]
      exact hcons ▸ .entries hstop h
  | value =>
    cases h with
    | entries hstop h => exact .value hstop h

/-- An event comes before what completes the slots after it. -/
theorem Completes.turn {σ σ' : List Slot} {e : Event} {es : List Event}
    (hturn : Slot.Turn σ e.kind σ') (hσ : σ.head? ≠ some .documentEnd) (h : Completes σ' es) :
    Completes σ (e :: es) := by
  obtain ⟨kind, mark⟩ := e
  generalize hk : (⟨kind, mark⟩ : Event).kind = k at hturn
  obtain rfl : kind = k := hk
  cases hturn with
  | @node s r new k hnew =>
    have hs : s ≠ .documentEnd := fun heq => hσ (by rw [heq]; rfl)
    have leaf (heq : new = []) (hnew : kind.opens? = some new) :
        Completes (s :: r) (⟨kind, mark⟩ :: es) := by
      subst heq
      exact .cons (.leaf ⟨kind, mark⟩ hnew) hs h
    cases kind with
    | scalar text style anchor tag => exact leaf (Option.some.inj hnew).symm hnew
    | «alias» name => exact leaf (Option.some.inj hnew).symm hnew
    | sequenceStart anchor tag =>
      obtain rfl : [.item] = new := Option.some.inj hnew
      cases h with
      | @items ts e _ es hstop h =>
        have := Completes.cons (.sequence ⟨.sequenceStart anchor tag, mark⟩ rfl ts e hstop) hs h
        simpa only [events, List.cons_append, List.append_assoc, List.nil_append] using this
    | mappingStart anchor tag =>
      obtain rfl : [.key] = new := Option.some.inj hnew
      cases h with
      | @entries ts e _ es hstop h =>
        have := Completes.cons (.mapping ⟨.mappingStart anchor tag, mark⟩ rfl ts e hstop) hs h
        simpa only [events, List.cons_append, List.append_assoc, List.nil_append] using this
    | _ => cases hnew
  | stop hclose =>
    cases kind with
    | sequenceEnd =>
      cases hclose
      show Completes (.item :: σ') (itemEvents [] ++ ⟨.sequenceEnd, mark⟩ :: es)
      exact .items rfl h
    | mappingEnd =>
      cases hclose
      show Completes (.key :: σ') (entryEvents [] ++ ⟨.mappingEnd, mark⟩ :: es)
      exact .entries rfl h
    | _ => cases hclose

/-! The starts of nodes among the events. -/

def startsNode (e : Event) : Bool :=
  e.kind.opens?.isSome

mutual

/-- Among the events those that start a node are the starts of the nodes. -/
theorem filter_events : (t : EventTree) → t.events.filter startsNode = t.nodes.map start
  | leaf e single => by
    have hstarts : startsNode e = true := by rw [startsNode, single]; rfl
    rw [events, nodes, List.filter_cons_of_pos hstarts]
    rfl
  | sequence e opens items stop closes => by
    have hstarts : startsNode e = true := by rw [startsNode, opens]; rfl
    have hstop : startsNode stop = false := by rw [startsNode, closes]; rfl
    rw [events, nodes, List.filter_cons_of_pos hstarts, List.filter_append, filter_itemEvents items]
    simp [hstop, start]
  | mapping e opens entries stop closes => by
    have hstarts : startsNode e = true := by rw [startsNode, opens]; rfl
    have hstop : startsNode stop = false := by rw [startsNode, closes]; rfl
    rw [events, nodes, List.filter_cons_of_pos hstarts, List.filter_append,
      filter_entryEvents entries]
    simp [hstop, start]

theorem filter_itemEvents :
    (ts : List EventTree) → (itemEvents ts).filter startsNode = (itemNodes ts).map start
  | [] => rfl
  | t :: r => by
    rw [itemEvents, itemNodes, List.filter_append, List.map_append, filter_events t,
      filter_itemEvents r]

theorem filter_entryEvents : (ts : List (EventTree × EventTree)) →
    (entryEvents ts).filter startsNode = (entryNodes ts).map start
  | [] => rfl
  | (k, v) :: r => by
    rw [entryEvents, entryNodes, List.filter_append, List.filter_append, List.map_append,
      List.map_append, filter_events k, filter_events v, filter_entryEvents r]

end

/-- Each alias names an anchor met before it or one of `names`. -/
def AliasesKnown (names : List String) : List Event → Prop
  | [] => True
  | e :: r => (∀ name, e.kind = .alias name → name ∈ names) ∧
      AliasesKnown (e.kind.anchor?.toList ++ names) r

theorem AliasesKnown.left {names : List String} {a b : List Event}
    (h : AliasesKnown names (a ++ b)) : AliasesKnown names a := by
  induction a generalizing names with
  | nil => trivial
  | cons e r ih => exact ⟨h.1, ih h.2⟩

/-- Events that start no node have no say in it. -/
theorem AliasesKnown.filter {names : List String} {es : List Event}
    (h : AliasesKnown names es) : AliasesKnown names (es.filter startsNode) := by
  induction es generalizing names with
  | nil => trivial
  | cons e r ih =>
    obtain ⟨he, hr⟩ := h
    rw [List.filter_cons]
    split
    · exact ⟨he, ih hr⟩
    next hstarts =>
      have hanchor : e.kind.anchor? = none := by
        unfold startsNode at hstarts
        cases hkind : e.kind <;> rw [hkind] at hstarts <;>
          first | rfl | exact absurd rfl hstarts
      rw [hanchor] at hr
      exact ih hr

/-- An alias among the nodes names an anchor before it. -/
theorem AliasesKnown.anchored {names : List String} {ts : List EventTree}
    (h : AliasesKnown names (ts.map start)) {k : Nat} {name : String}
    (hk : ts[k]?.bind alias? = some name) :
    name ∈ names ∨ ∃ j < k, ts[j]?.bind anchor? = some name := by
  induction ts generalizing names k with
  | nil => cases hk
  | cons t r ih =>
    obtain ⟨ht, hr⟩ := h
    cases k with
    | zero =>
      refine Or.inl (ht name ?_)
      have hk : t.alias? = some name := hk
      unfold alias? at hk
      split at hk
      next name' heq => rw [heq, Option.some.inj hk]
      · cases hk
    | succ k =>
      rcases ih hr hk with hmem | ⟨j, hj, hanchor⟩
      · rcases List.mem_append.mp hmem with hmem | hmem
        · exact Or.inr ⟨0, Nat.succ_pos k, Option.mem_toList.mp hmem⟩
        · exact Or.inl hmem
      · exact Or.inr ⟨j + 1, Nat.succ_lt_succ hj, hanchor⟩

theorem exists_last {P : Nat → Prop} {k : Nat} (h : ∃ j < k, P j) :
    ∃ j < k, P j ∧ ∀ i, j < i → i < k → ¬P i := by
  classical
  induction k with
  | zero =>
    obtain ⟨j, hj, _⟩ := h
    exact absurd hj (Nat.not_lt_zero j)
  | succ k ih =>
    by_cases hk : P k
    · exact ⟨k, Nat.lt_succ_self k, hk, fun i hlo hhi => absurd hlo (by omega)⟩
    · obtain ⟨j, hj, hP⟩ := h
      have hne : j ≠ k := fun heq => hk (heq ▸ hP)
      obtain ⟨j, hj, hP, hlast⟩ := ih ⟨j, by omega, hP⟩
      refine ⟨j, by omega, hP, ?_⟩
      intro i hlo hhi
      by_cases heq : i = k
      · exact heq ▸ hk
      · exact hlast i hlo (by omega)

/-- Each alias of a tree refers to a node before it. -/
theorem exists_refersTo {t : EventTree} (h : AliasesKnown [] t.events) {k : Nat} {name : String}
    (hk : t.nodes[k]?.bind alias? = some name) : ∃ j, RefersTo t.nodes k j := by
  have hknown := h.filter
  rw [filter_events] at hknown
  obtain ⟨j, hj, hanchor, hlast⟩ :=
    exists_last ((hknown.anchored hk).resolve_left List.not_mem_nil)
  refine ⟨j, hj, by rw [hk]; rfl, by rw [hanchor, hk], ?_⟩
  intro i hi hlt
  rw [hk]
  exact hlast i hlt hi

/-! One tree for each list of events. -/

theorem startsNode_start (t : EventTree) : startsNode t.start = true := by
  cases t with
  | leaf e single => rw [start, startsNode, single]; rfl
  | sequence e opens => rw [start, startsNode, opens]; rfl
  | mapping e opens => rw [start, startsNode, opens]; rfl

theorem events_cons (t : EventTree) : ∃ r, t.events = t.start :: r := by
  cases t with
  | leaf => exact ⟨_, rfl⟩
  | sequence => exact ⟨_, rfl⟩
  | mapping => exact ⟨_, rfl⟩

/-- The end of a collection is no start of a node. -/
theorem ne_of_stop {t : EventTree} {e : Event} {a b : List Event} (he : startsNode e = false) :
    e :: a ≠ t.events ++ b := by
  obtain ⟨r, hr⟩ := t.events_cons
  rw [hr, List.cons_append]
  intro heq
  rw [(List.cons.inj heq).1, startsNode_start] at he
  cases he

theorem start_eq {t t' : EventTree} {a b : List Event} (h : t.events ++ a = t'.events ++ b) :
    t.start = t'.start := by
  obtain ⟨r, hr⟩ := t.events_cons
  obtain ⟨r', hr'⟩ := t'.events_cons
  rw [hr, hr', List.cons_append, List.cons_append] at h
  exact (List.cons.inj h).1

mutual

/-- The events determine the tree. -/
theorem events_inj : (t t' : EventTree) → ∀ {a b : List Event},
    t.events ++ a = t'.events ++ b → t = t' ∧ a = b
  | leaf e single, t', a, b, h => by
    have hstart : e = t'.start := start_eq h
    cases t' with
    | leaf e' single' =>
      obtain rfl : e = e' := hstart
      exact ⟨rfl, (List.cons.inj h).2⟩
    | sequence e' opens' =>
      obtain rfl : e = e' := hstart
      cases single.symm.trans opens'
    | mapping e' opens' =>
      obtain rfl : e = e' := hstart
      cases single.symm.trans opens'
  | sequence e opens items stop closes, t', a, b, h => by
    have hstart : e = t'.start := start_eq h
    cases t' with
    | leaf e' single' =>
      obtain rfl : e = e' := hstart
      cases opens.symm.trans single'
    | sequence e' opens' items' stop' closes' =>
      obtain rfl : e = e' := hstart
      rw [events, events, List.cons_append, List.cons_append, List.append_assoc,
        List.append_assoc] at h
      obtain ⟨rfl, rfl, hab⟩ := itemEvents_inj items items' (by rw [startsNode, closes]; rfl)
        (by rw [startsNode, closes']; rfl) (List.cons.inj h).2
      exact ⟨rfl, hab⟩
    | mapping e' opens' =>
      obtain rfl : e = e' := hstart
      cases opens.symm.trans opens'
  | mapping e opens entries stop closes, t', a, b, h => by
    have hstart : e = t'.start := start_eq h
    cases t' with
    | leaf e' single' =>
      obtain rfl : e = e' := hstart
      cases opens.symm.trans single'
    | sequence e' opens' =>
      obtain rfl : e = e' := hstart
      cases opens.symm.trans opens'
    | mapping e' opens' entries' stop' closes' =>
      obtain rfl : e = e' := hstart
      rw [events, events, List.cons_append, List.cons_append, List.append_assoc,
        List.append_assoc] at h
      obtain ⟨rfl, rfl, hab⟩ := entryEvents_inj entries entries'
        (by rw [startsNode, closes]; rfl) (by rw [startsNode, closes']; rfl) (List.cons.inj h).2
      exact ⟨rfl, hab⟩

theorem itemEvents_inj : (ts ts' : List EventTree) → ∀ {stop stop' : Event} {a b : List Event},
    startsNode stop = false → startsNode stop' = false →
    itemEvents ts ++ stop :: a = itemEvents ts' ++ stop' :: b → ts = ts' ∧ stop = stop' ∧ a = b
  | [], ts', stop, stop', a, b, hstop, hstop', h => by
    cases ts' with
    | nil => exact ⟨rfl, List.cons.inj h⟩
    | cons t' r' =>
      have h : stop :: a = (t'.events ++ itemEvents r') ++ stop' :: b := h
      rw [List.append_assoc] at h
      exact absurd h (ne_of_stop hstop)
  | t :: r, ts', stop, stop', a, b, hstop, hstop', h => by
    cases ts' with
    | nil =>
      have h : (t.events ++ itemEvents r) ++ stop :: a = stop' :: b := h
      rw [List.append_assoc] at h
      exact absurd h.symm (ne_of_stop hstop')
    | cons t' r' =>
      rw [itemEvents, itemEvents, List.append_assoc, List.append_assoc] at h
      obtain ⟨rfl, hrest⟩ := events_inj t t' h
      obtain ⟨rfl, hab⟩ := itemEvents_inj r r' hstop hstop' hrest
      exact ⟨rfl, hab⟩

theorem entryEvents_inj : (ts ts' : List (EventTree × EventTree)) →
    ∀ {stop stop' : Event} {a b : List Event}, startsNode stop = false → startsNode stop' = false →
    entryEvents ts ++ stop :: a = entryEvents ts' ++ stop' :: b → ts = ts' ∧ stop = stop' ∧ a = b
  | [], ts', stop, stop', a, b, hstop, hstop', h => by
    cases ts' with
    | nil => exact ⟨rfl, List.cons.inj h⟩
    | cons t' r' =>
      have h : stop :: a = (t'.1.events ++ (t'.2.events ++ entryEvents r')) ++ stop' :: b := h
      rw [List.append_assoc] at h
      exact absurd h (ne_of_stop hstop)
  | (k, v) :: r, ts', stop, stop', a, b, hstop, hstop', h => by
    cases ts' with
    | nil =>
      have h : (k.events ++ (v.events ++ entryEvents r)) ++ stop :: a = stop' :: b := h
      rw [List.append_assoc] at h
      exact absurd h.symm (ne_of_stop hstop')
    | cons t' r' =>
      rw [entryEvents, entryEvents, List.append_assoc, List.append_assoc, List.append_assoc,
        List.append_assoc] at h
      obtain ⟨rfl, hkey⟩ := events_inj k t'.1 h
      obtain ⟨rfl, hvalue⟩ := events_inj v t'.2 hkey
      obtain ⟨rfl, hab⟩ := entryEvents_inj r r' hstop hstop' hvalue
      exact ⟨rfl, hab⟩

end

/-- A document has one tree. -/
theorem IsDocument.unique {t t' : EventTree} {es : List Event} (h : t.IsDocument es)
    (h' : t'.IsDocument es) : t = t' := by
  obtain ⟨first, last, rfl, _, _⟩ := h
  obtain ⟨first', last', heq, _, _⟩ := h'
  exact (events_inj t t' (List.cons.inj heq).2).1

end EventTree

namespace Parser

open EventTree (Completes AliasesKnown)

variable {d : Dialect} {p p' : Parser} {e : Event} {σ σ' : List Slot}

/-- The last event of a document, or that of a stream without documents. -/
def endsDocument (k : EventKind) : Bool :=
  k == .documentEnd || k == .streamEnd

theorem turn_goes_on {k : EventKind} (h : Slot.Turn σ k σ') : endsDocument k = false := by
  cases h with
  | node hnew => cases k <;> first | rfl | cases hnew
  | stop hclose => cases k <;> first | rfl | cases hclose

/-- The slot of the end of the document stays below the others. -/
theorem turn_bottom {k : EventKind} (h : Slot.Turn σ k σ')
    (hbottom : σ.getLast? = some .documentEnd) (htop : σ.head? ≠ some .documentEnd) :
    σ'.getLast? = some .documentEnd := by
  have below {s : Slot} {r : List Slot} (hbottom : (s :: r).getLast? = some .documentEnd)
      (htop : (s :: r).head? ≠ some .documentEnd) : r.getLast? = some .documentEnd := by
    cases r with
    | nil => exact absurd hbottom htop
    | cons x r => rwa [List.getLast?_cons_cons] at hbottom
  cases h with
  | node hnew =>
    rw [← List.append_assoc, List.getLast?_append, below hbottom htop]
    rfl
  | stop hclose => exact below hbottom htop

theorem expect_of_head (h : p.expect.slots.head? = some .documentEnd) :
    p.expect = .documentEnd := by
  cases hexpect : p.expect <;> rw [hexpect] at h <;> first | rfl | cases h

/-- A step inside a document ends it, or it advances and stays inside. -/
theorem step_inside (htidy : p.Tidy) (hbottom : p.slots.getLast? = some .documentEnd)
    (h : p.step d = .ok (e, p')) :
    (p.expect = .documentEnd ∧ e.kind = .documentEnd) ∨
      (Advances p e p' ∧ p.slots.head? ≠ some .documentEnd ∧
        p'.slots.getLast? = some .documentEnd) := by
  have hinside : p.expect.slots ≠ [] := by
    intro hnil
    rw [slots, hnil, htidy.inside hnil] at hbottom
    cases hbottom
  by_cases hend : p.expect = .documentEnd
  · rw [step, hend] at h
    exact Or.inl ⟨hend, documentEnd_ok h⟩
  · right
    have hadv := (step_advances h hinside).resolve_left fun h => hend h.1
    have htop : p.slots.head? ≠ some .documentEnd := by
      obtain ⟨s, r, hcons⟩ := List.exists_cons_of_ne_nil hinside
      intro hhead
      rw [slots, hcons] at hhead
      exact hend (expect_of_head (by rw [hcons]; exact hhead))
    exact ⟨hadv, htop, turn_bottom hadv.turn hbottom htop⟩

/-- The rest of a document completes the collections that are open. -/
theorem run_completes {fuel : Nat} {es : List Event} (htidy : p.Tidy)
    (hbottom : p.slots.getLast? = some .documentEnd) (hfuel : p.work < fuel)
    (h : p.run d endsDocument fuel = .ok es) :
    Completes p.slots es ∧ AliasesKnown p.anchors es := by
  induction fuel generalizing p es with
  | zero => exact absurd hfuel (Nat.not_lt_zero _)
  | succ fuel ih =>
    rw [run] at h
    obtain ⟨⟨e, p'⟩, hstep, h⟩ := bind_eq_ok.mp h
    dsimp only at h
    rcases step_inside htidy hbottom hstep with ⟨hend, hkind⟩ | ⟨hadv, htop, hbottom'⟩
    · rw [hkind] at h
      cases h
      rw [slots, hend]
      refine ⟨.stop hkind, ?_, trivial⟩
      intro name hname
      rw [hkind] at hname
      cases hname
    · rw [if_neg (by rw [turn_goes_on hadv.turn]; exact Bool.false_ne_true)] at h
      obtain ⟨rest, hrest, h⟩ := bind_eq_ok.mp h
      cases h
      have hless := hadv.less
      obtain ⟨hcompletes, hknown⟩ := ih (hadv.tidy htidy) hbottom' (by omega) hrest
      refine ⟨hcompletes.turn hadv.turn htop, hadv.known, ?_⟩
      rw [← hadv.anchors]
      exact hknown

/-- A parser that has taken the start of the stream stands before the first document. -/
structure Ready (scan : Scan) (p : Parser) : Prop where
  expect : p.expect = .document true
  pending : p.pending = []
  tokens : p.tokens = scan.tokens.drop 1

theorem open_ready {scan : Scan} (h : (ofScan scan).open? = .ok p) : Ready scan p := by
  unfold open? look at h
  split at h
  · cases h
  · obtain ⟨⟨t, q⟩, hlook, h⟩ := bind_eq_ok.mp h
    cases hlook
    dsimp only at h
    split at h
    · cases h
      exact ⟨rfl, rfl, rfl⟩
    · cases h

theorem Ready.run {scan : Scan} (h : Ready scan p) {es : List Event}
    (hrun : p.run d endsDocument (Event.eventLimit scan) = .ok es) :
    (∃ e, es = [e] ∧ e.kind = .streamEnd) ∨
      ∃ first q rest, es = first :: rest ∧ first.kind = .documentStart ∧ Opened p q ∧
        q.run d endsDocument (6 * scan.tokens.length + 15) = .ok rest := by
  rw [Event.eventLimit, Parser.run] at hrun
  obtain ⟨⟨e, q⟩, hstep, hrun⟩ := bind_eq_ok.mp hrun
  rw [step, h.expect] at hstep
  dsimp only at hrun
  rcases document_ok h.expect h.pending hstep with hkind | ⟨hkind, hopened⟩
  · rw [hkind] at hrun
    cases hrun
    exact Or.inl ⟨e, rfl, hkind⟩
  · rw [hkind] at hrun
    obtain ⟨rest, hrest, hrun⟩ := bind_eq_ok.mp hrun
    cases hrun
    exact Or.inr ⟨e, q, rest, rfl, hkind, hopened, hrest⟩

/-- The fuel lasts for every document. -/
theorem Ready.work_lt {scan : Scan} (h : Ready scan p) : p.work < 6 * scan.tokens.length + 15 := by
  have hlength : p.tokens.length ≤ scan.tokens.length := by
    rw [h.tokens, List.length_drop]
    omega
  rw [work, load, h.pending, h.expect]
  simp only [List.map_nil, List.sum_nil, Expect.work]
  omega

end Parser

namespace Event

/-- The events of the first document of a text are those of one tree, between its start and its
end, and each alias names an anchor before it. -/
theorem ofFirstDocument_tree {d : Dialect} {scan : Scan} {es : List Event}
    (h : ofFirstDocument d scan = .ok es) :
    (∃ e, es = [e] ∧ e.kind = .streamEnd) ∨
      ∃ first rest, es = first :: rest ∧ first.kind = .documentStart ∧
        EventTree.AliasesKnown [] rest ∧ ∃ t : EventTree, t.IsDocument es := by
  unfold ofFirstDocument at h
  obtain ⟨p, hopen, h⟩ := bind_eq_ok.mp h
  have hready := Parser.open_ready hopen
  rcases hready.run h with hend | ⟨first, q, rest, rfl, hfirst, hopened, hrest⟩
  · exact Or.inl hend
  · right
    have hwork := hready.work_lt
    have hless := hopened.less
    obtain ⟨hcompletes, hknown⟩ :=
      Parser.run_completes hopened.tidy (by rw [hopened.slots]; rfl) (by omega) hrest
    rw [hopened.slots] at hcompletes
    rw [hopened.anchors] at hknown
    refine ⟨first, rest, rfl, hfirst, hknown, ?_⟩
    cases hcompletes with
    | @root t _ tail htail =>
      cases htail with
      | @stop last _ hlast => exact ⟨t, first, last, rfl, hfirst, hlast⟩

end Event

namespace EventTree

/-- In a document that the parser accepts each alias refers to a node before it. -/
theorem IsDocument.exists_refersTo {d : Dialect} {scan : Scan} {es : List Event} {t : EventTree}
    (ht : t.IsDocument es) (h : Event.ofFirstDocument d scan = .ok es) {k : Nat}
    (hk : (t.nodes[k]?.bind alias?).isSome) : ∃ j, RefersTo t.nodes k j := by
  obtain ⟨first, last, rfl, hfirst, _⟩ := ht
  obtain ⟨name, hk⟩ := Option.isSome_iff_exists.mp hk
  rcases Event.ofFirstDocument_tree h with ⟨e, hes, hkind⟩ | ⟨first', rest, hes, _, hknown, _⟩
  · obtain ⟨rfl, _⟩ := List.cons.inj hes
    rw [hfirst] at hkind
    cases hkind
  · obtain ⟨_, rfl⟩ := List.cons.inj hes
    exact EventTree.exists_refersTo hknown.left hk

end EventTree

end Blueprint.Yaml
