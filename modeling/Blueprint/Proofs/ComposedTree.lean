import Blueprint.Proofs.MetNodes
import Blueprint.Proofs.NodeWalk

/-!
The tree that is composed from the events of a document. If no alias stands inside the node that it
refers to, every node of the events is in its place, and an alias holds the node that it refers to.
-/

namespace Blueprint

open Yaml (Event EventTree)

namespace Node

mutual

/-- A node and the nodes in it, each collection before its parts. -/
def preorder : Node → List Node
  | scalar start stop text style textTag => [scalar start stop text style textTag]
  | .alias start stop target => [.alias start stop target]
  | sequence start stop flow items => sequence start stop flow items :: preorderItems items
  | mapping start stop flow entries => mapping start stop flow entries :: preorderEntries entries

def preorderItems : List Node → List Node
  | [] => []
  | n :: r => n.preorder ++ preorderItems r

def preorderEntries : List (Node × Node) → List Node
  | [] => []
  | (k, v) :: r => k.preorder ++ (v.preorder ++ preorderEntries r)

end

mutual

theorem walkFrom_nodes (keyNode : Option Node) (path : List PathStep) :
    (n : Node) → (walkFrom keyNode path n).map (·.node) = n.preorder
  | scalar .. => rfl
  | .alias .. => rfl
  | sequence _ _ _ items => by
    rw [walkFrom, preorder, List.map_cons, walkItems_nodes path 0 items]
  | mapping _ _ _ entries => by
    rw [walkFrom, preorder, List.map_cons, walkEntries_nodes path entries]

theorem walkItems_nodes (path : List PathStep) (index : Nat) :
    (ns : List Node) → (walkItems path index ns).map (·.node) = preorderItems ns
  | [] => rfl
  | n :: r => by
    rw [walkItems, preorderItems, List.map_append, walkFrom_nodes _ _ n,
      walkItems_nodes path (index + 1) r]

theorem walkEntries_nodes (path : List PathStep) :
    (ns : List (Node × Node)) → (walkEntries path ns).map (·.node) = preorderEntries ns
  | [] => rfl
  | (k, v) :: r => by
    rw [walkEntries, preorderEntries, List.map_append, List.map_append, walkFrom_nodes _ _ k,
      walkFrom_nodes _ _ v, walkEntries_nodes path r, List.append_assoc]

end

theorem walk_nodes (n : Node) : n.walk.map (·.node) = n.preorder := by
  rw [n.walk_eq, walkFrom_nodes]

/-- A block mapping starts at its first key. -/
def mappingStart (start : Mark) (flow : Bool) : List (Node × Node) → Mark
  | [] => start
  | (k, _) :: _ => if flow then start else k.start

end Node

mutual

/-- The node is the one that the events of the tree describe, whatever its aliases hold. -/
inductive Composed (source : Source) : EventTree → Node → Prop where
  | scalar {e : Event} {text : String} {style : Yaml.ScalarStyle} {anchor : Option String}
    {tag : Option Yaml.Tag} {single : e.kind.opens? = some []}
    (h : e.kind = .scalar text style anchor tag) :
    Composed source (.leaf e single) (Composition.scalarNode source e.mark text style tag)
  | alias {e : Event} {name : String} {target : Node} {single : e.kind.opens? = some []}
    (h : e.kind = .alias name) :
    Composed source (.leaf e single)
      (.alias e.mark (source.markAt (Composition.aliasStop source e.mark.index)) target)
  | sequence {start stop : Event} {opens : start.kind.opens? = some [.item]}
    {closes : stop.kind = .sequenceEnd} {items : List EventTree} {nodes : List Node}
    (h : ItemsComposed source items nodes) :
    Composed source (.sequence start opens items stop closes)
      (.sequence start.mark stop.mark (source.char? start.mark.index = some '[') nodes)
  | mapping {start stop : Event} {opens : start.kind.opens? = some [.key]}
    {closes : stop.kind = .mappingEnd} {entries : List (EventTree × EventTree)}
    {nodes : List (Node × Node)} (h : EntriesComposed source entries nodes) :
    Composed source (.mapping start opens entries stop closes)
      (.mapping (Node.mappingStart start.mark (source.char? start.mark.index = some '{') nodes)
        stop.mark (source.char? start.mark.index = some '{') nodes)

inductive ItemsComposed (source : Source) : List EventTree → List Node → Prop where
  | nil : ItemsComposed source [] []
  | cons {t : EventTree} {ts : List EventTree} {n : Node} {ns : List Node}
    (head : Composed source t n) (tail : ItemsComposed source ts ns) :
    ItemsComposed source (t :: ts) (n :: ns)

inductive EntriesComposed (source : Source) :
    List (EventTree × EventTree) → List (Node × Node) → Prop where
  | nil : EntriesComposed source [] []
  | cons {k v : EventTree} {ts : List (EventTree × EventTree)} {m n : Node}
    {ns : List (Node × Node)} (key : Composed source k m) (value : Composed source v n)
    (tail : EntriesComposed source ts ns) : EntriesComposed source ((k, v) :: ts) ((m, n) :: ns)

end

namespace Composition

variable {source : Source} {c c' : Composition} {seen : Seen} {n : Node} {f : OpenNode}
  {r : List OpenNode}

/-- The second composition comes from the first by putting a node in its place. -/
structure Gains (c : Composition) (n : Node) (c' : Composition) : Prop where
  pending : c'.pending = c.pending.head?.toList.map (·.add n) ++ c.pending.drop 1
  root : c'.root = if c.pending.isEmpty then c.root.or (some n) else c.root

theorem attach_gains (c : Composition) (n : Node) (anchor : Option Nat) :
    c.Gains n (c.attach n anchor) := by
  unfold attach
  cases anchor <;> cases hp : c.pending <;> constructor <;> simp [hp]

theorem number_gains {anchor : Option String} (h : (c.number anchor).1.Gains n c') :
    c.Gains n c' := by
  cases anchor <;> exact ⟨h.pending, h.root⟩

theorem Gains.pending_of_cons (h : c.Gains n c') (hp : c.pending = f :: r) :
    c'.pending = f.add n :: r ∧ c'.root = c.root := by
  have hpending := h.pending
  have hroot := h.root
  rw [hp] at hpending hroot
  exact ⟨hpending, hroot⟩

/-- What is known after the nodes `ts` have been met, which have become `ns`. -/
structure Learns (seen : Seen) (ts : List EventTree) (ns : List Node) (c : Composition) :
    Prop where
  resolves : seen.Resolves ts ns
  remembers : c.Remembers (Seen.records ts ns ++ seen)

theorem Learns.append {ts ts' : List EventTree} {ns ns' : List Node} (h : Learns seen ts ns c)
    (h' : Learns (Seen.records ts ns ++ seen) ts' ns' c') :
    Learns seen (ts ++ ts') (ns ++ ns') c' := by
  refine ⟨h.resolves.append h'.resolves, ?_⟩
  rw [Seen.records_append h.resolves.length_eq, List.append_assoc]
  exact h'.remembers

theorem openNode_ok (hc : c.Remembers seen) (start : Mark) (flow : Bool) (anchor : Option String)
    (children : OpenChildren) :
    (c.openNode start flow anchor children).Remembers ((anchor, none) :: seen) ∧
      (c.openNode start flow anchor children).pending =
        ⟨start, flow, anchor.map fun _ => seen.ledger.length, children⟩ :: c.pending ∧
      (c.openNode start flow anchor children).root = c.root := by
  obtain ⟨hnumbered, hnumber⟩ := hc.number anchor
  refine ⟨⟨hnumbered.count, hnumbered.names, hnumbered.anchored, hnumbered.fresh⟩, ?_, ?_⟩
  · show ⟨start, flow, (c.number anchor).2, children⟩ :: (c.number anchor).1.pending = _
    rw [hnumber]
    cases anchor <;> rfl
  · cases anchor <;> rfl

/-- The end of a collection puts it in its place. -/
theorem close_ok {t : EventTree} {ts : List EventTree} {ns : List Node} {stop : Event}
    (hstop : stop.kind = .sequenceEnd ∨ stop.kind = .mappingEnd)
    (hlearns : Learns ((t.anchor?, none) :: seen) ts ns c') (halias : t.alias? = none)
    (hp : c'.pending = f :: c.pending) (hroot : c'.root = c.root)
    (hf : f.anchor = t.anchor?.map fun _ => seen.ledger.length) (hn : f.close stop.mark = n) :
    c.Gains n (c'.step source stop) ∧ Learns seen (t :: ts) (n :: ns) (c'.step source stop) := by
  subst hn
  have hstep : c'.step source stop =
      { c' with pending := c.pending }.attach (f.close stop.mark) f.anchor := by
    unfold step
    rcases hstop with hstop | hstop <;> rw [hstop] <;> dsimp only <;> rw [hp]
  rw [hstep]
  refine ⟨?_, ⟨?_, ?_⟩, ?_⟩
  · have := attach_gains { c' with pending := c.pending } (f.close stop.mark) f.anchor
    exact ⟨this.pending, hroot ▸ this.root⟩
  · intro name hname
    rw [halias] at hname
    cases hname
  · have hresolves : Seen.Resolves ([] ++ (t.anchor?, none) :: seen) ts ns := hlearns.resolves
    exact hresolves.complete
  · rw [Seen.records_cons, List.append_assoc, hf]
    have := hlearns.remembers
    have hpending : { c' with pending := c.pending }.Remembers
        (Seen.records ts ns ++ (t.anchor?, none) :: seen) :=
      ⟨this.count, this.names, this.anchored, this.fresh⟩
    exact hpending.attach _

/-- The aliases among the nodes of a document refer to nodes that are complete by then. -/
structure Referable (nodes : List EventTree) : Prop where
  known : ∀ k, (nodes[k]?.bind EventTree.alias?).isSome → ∃ j, EventTree.RefersTo nodes k j
  outside : EventTree.AliasesOutside nodes

variable {nodes rest : List EventTree} {k : Nat}

/-- An alias finds the node that it refers to. -/
theorem Referable.target {name : String} {t : EventTree} (h : Referable nodes)
    (hseen : seen.UpTo nodes k 1) (hdrop : nodes.drop k = t :: rest)
    (ht : t.alias? = some name) : ∃ target, seen.target? name = some target := by
  have hget : nodes[k]? = some t := by
    rw [← Nat.add_zero k, ← List.getElem?_drop, hdrop]
    rfl
  have halias : nodes[k]?.bind EventTree.alias? = some name := by rw [hget]; exact ht
  obtain ⟨j, hrefers⟩ := h.known k (by rw [halias]; rfl)
  have houtside := h.outside k (List.getElem?_eq_some_iff.mp hget).1 j hrefers.1 hrefers
  obtain ⟨node, hnode, hfound⟩ := hseen.target hrefers halias
  cases node with
  | some node => exact ⟨node, hfound⟩
  | none =>
    obtain ⟨t', ht', hge⟩ := hseen.around j _ hnode
    have := houtside t' ht'
    omega

theorem compose_leaf (source : Source) (h : Referable nodes) {e : Event}
    {single : e.kind.opens? = some []} (hdrop : nodes.drop k = .leaf e single :: rest)
    (hseen : seen.UpTo nodes k 1)
    (hc : c.Remembers seen) :
    ∃ n, Composed source (.leaf e single) n ∧ c.Gains n (c.step source e) ∧
      n.preorder = [n] ∧ seen.Resolves [.leaf e single] [n] ∧
      (c.step source e).Remembers ((EventTree.anchor? (.leaf e single), some n) :: seen) := by
  cases hkind : e.kind with
  | scalar text style anchor tag =>
    refine ⟨scalarNode source e.mark text style tag, .scalar hkind, ?_, rfl, ⟨?_, trivial⟩, ?_⟩
    · rw [step, hkind]
      exact number_gains (attach_gains _ _ _)
    · intro name hname
      simp [EventTree.alias?, EventTree.start, hkind] at hname
    · obtain ⟨hnumbered, hnumber⟩ := hc.number anchor
      have hanchor : EventTree.anchor? (.leaf e single) = anchor := by
        simp [EventTree.anchor?, EventTree.start, hkind, Yaml.EventKind.anchor?]
      rw [step, hkind, hanchor]
      have := hnumbered.attach_head (scalarNode source e.mark text style tag)
      rwa [← hnumber] at this
  | «alias» name =>
    have halias : EventTree.alias? (.leaf e single) = some name := by
      simp [EventTree.alias?, EventTree.start, hkind]
    obtain ⟨target, htarget⟩ := h.target hseen hdrop halias
    have hfound := hc.target name
    rw [htarget] at hfound
    have hstep : c.step source e =
        c.attach (.alias e.mark (source.markAt (aliasStop source e.mark.index)) target) none := by
      rw [step, hkind]
      dsimp only
      rw [hfound]
    rw [hstep]
    refine ⟨_, .alias hkind, attach_gains _ _ _, rfl, ⟨?_, trivial⟩, ?_⟩
    · intro name' hname'
      obtain rfl : name = name' := Option.some.inj (halias.symm.trans hname')
      exact ⟨_, _, target, rfl, htarget⟩
    · have hanchor : EventTree.anchor? (.leaf e single) = none := by
        simp [EventTree.anchor?, EventTree.start, hkind, Yaml.EventKind.anchor?]
      rw [hanchor]
      exact (hc.number none).1.attach_head _
  | _ =>
    rw [hkind] at single
    cases single

mutual

theorem compose_tree (source : Source) (h : Referable nodes) : (t : EventTree) →
    ∀ {k : Nat} {seen : Seen} {c : Composition} {rest : List EventTree},
    nodes.drop k = t.nodes ++ rest → seen.UpTo nodes k t.nodes.length → c.Remembers seen →
    ∃ n c', t.events.foldl (step source) c = c' ∧ Composed source t n ∧ c.Gains n c' ∧
      Learns seen t.nodes n.preorder c'
  | .leaf e single, k, seen, c, rest, hdrop, hseen, hc => by
    obtain ⟨n, hn, hgains, hself, hresolves, hremembers⟩ :=
      compose_leaf source h hdrop hseen hc
    refine ⟨n, _, rfl, hn, hgains, ?_⟩
    rw [hself]
    exact ⟨hresolves, hremembers⟩
  | .sequence e opens items stop closes, k, seen, c, rest, hdrop, hseen, hc => by
    obtain ⟨anchor, tag, hkind⟩ : ∃ anchor tag, e.kind = .sequenceStart anchor tag := by
      cases hkind : e.kind <;> rw [hkind] at opens <;> first | exact ⟨_, _, rfl⟩ | cases opens
    have hanchor : EventTree.anchor? (.sequence e opens items stop closes) = anchor := by
      simp [EventTree.anchor?, EventTree.start, hkind, Yaml.EventKind.anchor?]
    have halias : EventTree.alias? (.sequence e opens items stop closes) = none := by
      simp [EventTree.alias?, EventTree.start, hkind]
    rw [EventTree.nodes] at hdrop
    have hinner : nodes.drop (k + 1) = EventTree.itemNodes items ++ rest := by
      rw [← List.drop_drop, hdrop]
      rfl
    have henter := hseen.enter hdrop (by rw [EventTree.nodes, List.length_cons])
    rw [hanchor] at henter
    obtain ⟨hopened, hpending, hroot⟩ :=
      openNode_ok hc e.mark (source.char? e.mark.index = some '[') anchor (.items [])
    obtain ⟨ns, c₂, hfold, hns, hpending₂, hroot₂, hlearns⟩ :=
      compose_items source h items hinner henter hopened hpending rfl
    rw [← hanchor] at hlearns
    have hclose : OpenNode.close ⟨e.mark, source.char? e.mark.index = some '[',
        anchor.map fun _ => seen.ledger.length, .items (ns.reverse ++ [])⟩ stop.mark =
          .sequence e.mark stop.mark (source.char? e.mark.index = some '[') ns := by
      simp [OpenNode.close]
    obtain ⟨hgains, hlearns⟩ := close_ok (Or.inl closes) hlearns halias hpending₂
      (hroot₂.trans hroot) (by rw [hanchor]) hclose
    refine ⟨_, c₂.step source stop, ?_, .sequence hns, hgains, ?_⟩
    · rw [EventTree.events, List.foldl_cons, List.foldl_append, step, hkind, hfold]
      rfl
    · rw [EventTree.nodes, Node.preorder]
      exact hlearns
  | .mapping e opens entries stop closes, k, seen, c, rest, hdrop, hseen, hc => by
    obtain ⟨anchor, tag, hkind⟩ : ∃ anchor tag, e.kind = .mappingStart anchor tag := by
      cases hkind : e.kind <;> rw [hkind] at opens <;> first | exact ⟨_, _, rfl⟩ | cases opens
    have hanchor : EventTree.anchor? (.mapping e opens entries stop closes) = anchor := by
      simp [EventTree.anchor?, EventTree.start, hkind, Yaml.EventKind.anchor?]
    have halias : EventTree.alias? (.mapping e opens entries stop closes) = none := by
      simp [EventTree.alias?, EventTree.start, hkind]
    rw [EventTree.nodes] at hdrop
    have hinner : nodes.drop (k + 1) = EventTree.entryNodes entries ++ rest := by
      rw [← List.drop_drop, hdrop]
      rfl
    have henter := hseen.enter hdrop (by rw [EventTree.nodes, List.length_cons])
    rw [hanchor] at henter
    obtain ⟨hopened, hpending, hroot⟩ :=
      openNode_ok hc e.mark (source.char? e.mark.index = some '{') anchor (.entries [] none)
    obtain ⟨ns, c₂, hfold, hns, hpending₂, hroot₂, hlearns⟩ :=
      compose_entries source h entries hinner henter hopened hpending rfl
    rw [← hanchor] at hlearns
    have hclose : OpenNode.close ⟨e.mark, source.char? e.mark.index = some '{',
        anchor.map fun _ => seen.ledger.length, .entries (ns.reverse ++ []) none⟩ stop.mark =
          .mapping (Node.mappingStart e.mark (source.char? e.mark.index = some '{') ns) stop.mark
            (source.char? e.mark.index = some '{') ns := by
      rw [OpenNode.close, List.append_nil]
      dsimp only
      rw [List.reverse_reverse]
      cases ns <;> rfl
    obtain ⟨hgains, hlearns⟩ := close_ok (Or.inr closes) hlearns halias hpending₂
      (hroot₂.trans hroot) (by rw [hanchor]) hclose
    refine ⟨_, c₂.step source stop, ?_, .mapping hns, hgains, ?_⟩
    · rw [EventTree.events, List.foldl_cons, List.foldl_append, step, hkind, hfold]
      rfl
    · rw [EventTree.nodes, Node.preorder]
      exact hlearns

theorem compose_items (source : Source) (h : Referable nodes) : (ts : List EventTree) →
    ∀ {k : Nat} {seen : Seen} {c : Composition} {rest : List EventTree} {f : OpenNode}
      {r : List OpenNode} {done : List Node},
    nodes.drop k = EventTree.itemNodes ts ++ rest →
    seen.UpTo nodes k (EventTree.itemNodes ts).length → c.Remembers seen → c.pending = f :: r →
    f.children = .items done →
    ∃ ns c', (EventTree.itemEvents ts).foldl (step source) c = c' ∧ ItemsComposed source ts ns ∧
      c'.pending = { f with children := .items (ns.reverse ++ done) } :: r ∧ c'.root = c.root ∧
      Learns seen (EventTree.itemNodes ts) (Node.preorderItems ns) c'
  | [], k, seen, c, rest, f, r, done, hdrop, hseen, hc, hp, hf => by
    refine ⟨[], c, rfl, .nil, ?_, rfl, trivial, hc⟩
    rw [hp, List.reverse_nil, List.nil_append, ← hf]
  | t :: ts, k, seen, c, rest, f, r, done, hdrop, hseen, hc, hp, hf => by
    rw [EventTree.itemNodes, List.append_assoc] at hdrop
    rw [EventTree.itemNodes, List.length_append] at hseen
    obtain ⟨n, c₁, hfold, hn, hgains, hlearns⟩ := compose_tree source h t hdrop hseen.weaken hc
    obtain ⟨hpending, hroot⟩ := hgains.pending_of_cons hp
    have hdrop' : nodes.drop (k + t.nodes.length) = EventTree.itemNodes ts ++ rest := by
      rw [← List.drop_drop, hdrop, List.drop_left]
    have hadd : f.add n = { f with children := .items (n :: done) } := by
      rw [OpenNode.add, hf]
    obtain ⟨ns, c₂, hfold₂, hns, hpending₂, hroot₂, hlearns₂⟩ :=
      compose_items source h ts hdrop' (hseen.records hdrop hlearns.resolves.length_eq)
        hlearns.remembers (hpending.trans (by rw [hadd])) rfl
    refine ⟨n :: ns, c₂, ?_, .cons hn hns, ?_, hroot₂.trans hroot, ?_⟩
    · rw [EventTree.itemEvents, List.foldl_append, hfold, hfold₂]
    · rw [hpending₂, List.reverse_cons, List.append_assoc]
      rfl
    · rw [EventTree.itemNodes, Node.preorderItems]
      exact hlearns.append hlearns₂

theorem compose_entries (source : Source) (h : Referable nodes) :
    (ts : List (EventTree × EventTree)) → ∀ {k : Nat} {seen : Seen}
    {c : Composition} {rest : List EventTree} {f : OpenNode} {r : List OpenNode}
    {done : List (Node × Node)}, nodes.drop k = EventTree.entryNodes ts ++ rest →
    seen.UpTo nodes k (EventTree.entryNodes ts).length → c.Remembers seen → c.pending = f :: r →
    f.children = .entries done none →
    ∃ ns c', (EventTree.entryEvents ts).foldl (step source) c = c' ∧
      EntriesComposed source ts ns ∧
      c'.pending = { f with children := .entries (ns.reverse ++ done) none } :: r ∧
      c'.root = c.root ∧ Learns seen (EventTree.entryNodes ts) (Node.preorderEntries ns) c'
  | [], k, seen, c, rest, f, r, done, hdrop, hseen, hc, hp, hf => by
    refine ⟨[], c, rfl, .nil, ?_, rfl, trivial, hc⟩
    rw [hp, List.reverse_nil, List.nil_append, ← hf]
  | (key, value) :: ts, k, seen, c, rest, f, r, done, hdrop, hseen, hc, hp, hf => by
    rw [EventTree.entryNodes, List.append_assoc, List.append_assoc] at hdrop
    rw [EventTree.entryNodes, List.length_append, List.length_append] at hseen
    obtain ⟨m, c₁, hfold, hm, hgains, hlearns⟩ := compose_tree source h key hdrop hseen.weaken hc
    obtain ⟨hpending, hroot⟩ := hgains.pending_of_cons hp
    have hadd : f.add m = { f with children := .entries done (some m) } := by
      rw [OpenNode.add, hf]
    have hdrop₁ : nodes.drop (k + key.nodes.length) =
        value.nodes ++ (EventTree.entryNodes ts ++ rest) := by
      rw [← List.drop_drop, hdrop, List.drop_left]
    have hseen₁ := hseen.records hdrop hlearns.resolves.length_eq
    obtain ⟨n, c₂, hfold₂, hn, hgains₂, hlearns₂⟩ :=
      compose_tree source h value hdrop₁ hseen₁.weaken hlearns.remembers
    obtain ⟨hpending₂, hroot₂⟩ := hgains₂.pending_of_cons (hpending.trans (by rw [hadd]))
    have hdrop₂ : nodes.drop (k + key.nodes.length + value.nodes.length) =
        EventTree.entryNodes ts ++ rest := by
      rw [← List.drop_drop, hdrop₁, List.drop_left]
    obtain ⟨ns, c₃, hfold₃, hns, hpending₃, hroot₃, hlearns₃⟩ :=
      compose_entries source h ts hdrop₂ (hseen₁.records hdrop₁ hlearns₂.resolves.length_eq)
        hlearns₂.remembers hpending₂ rfl
    refine ⟨(m, n) :: ns, c₃, ?_, .cons hm hn hns, ?_, hroot₃.trans (hroot₂.trans hroot), ?_⟩
    · rw [EventTree.entryEvents, List.foldl_append, List.foldl_append, hfold, hfold₂, hfold₃]
    · rw [hpending₃, List.reverse_cons, List.append_assoc]
      rfl
    · rw [EventTree.entryNodes, Node.preorderEntries]
      exact hlearns.append (hlearns₂.append hlearns₃)

end

end Composition

namespace Node

/-- A text is refused or has no document, or its events are those of a tree. Then, if no alias
stands inside the node that it refers to, the tree that is composed has every node of the events in
its place, and each alias holds the node that it refers to. -/
theorem compose_keeps_nodes (source : Source) {text : List Char} {events : List Event}
    (h : Event.ofFirstDocument .document (Yaml.Scan.ofList .document text) = .ok events) :
    ((∃ e, events = [e] ∧ e.kind = .streamEnd) ∧ compose source text = .ok none) ∨
      ((∃ tree : EventTree, tree.IsDocument events) ∧
        ∀ tree : EventTree, tree.IsDocument events → EventTree.AliasesOutside tree.nodes →
          ∃ root, compose source text = .ok (some root) ∧ Composed source tree root ∧
            ∀ k, (tree.nodes[k]?.bind EventTree.alias?).isSome →
              ∃ j start stop target, EventTree.RefersTo tree.nodes k j ∧
                (root.walk.map (·.node))[k]? = some (.alias start stop target) ∧
                (root.walk.map (·.node))[j]? = some target) := by
  have hcompose : compose source text = .ok (ofEvents source events) := by
    rw [compose, h]
    rfl
  rcases Yaml.Event.ofFirstDocument_tree h with ⟨e, rfl, hkind⟩ | ⟨_, _, _, _, _, htree⟩
  · refine Or.inl ⟨⟨e, rfl, hkind⟩, ?_⟩
    rw [hcompose, ofEvents, List.foldl_cons, Composition.step, hkind]
    rfl
  · refine Or.inr ⟨htree, ?_⟩
    intro tree hdocument houtside
    have hknown := fun k => hdocument.exists_refersTo h (k := k)
    obtain ⟨first, last, rfl, hfirst, hlast⟩ := hdocument
    have hupTo : Seen.UpTo tree.nodes 0 tree.nodes.length [] :=
      ⟨rfl, by simp, by intro j anchor hj; simp at hj⟩
    have hempty : Composition.empty.Remembers [] :=
      ⟨rfl, rfl, fun x hx => absurd hx List.not_mem_nil, fun x hx => absurd hx List.not_mem_nil⟩
    have hdrop : tree.nodes.drop 0 = tree.nodes ++ [] := by simp
    obtain ⟨root, c, hfold, hroot, hgains, hlearns⟩ :=
      Composition.compose_tree source ⟨hknown, houtside⟩ tree hdrop hupTo hempty
    refine ⟨root, ?_, hroot, ?_⟩
    · have hstart : Composition.empty.step source first = .empty := by
        rw [Composition.step, hfirst]
      have hend : c.step source last = c := by
        rw [Composition.step, hlast]
      rw [hcompose, ofEvents, List.foldl_cons, List.foldl_append, hstart, hfold, List.foldl_cons,
        hend, List.foldl_nil, hgains.root]
      rfl
    · intro k hk
      obtain ⟨j, hrefers⟩ := hknown k hk
      obtain ⟨start, stop, target, hget, htarget⟩ := hlearns.resolves.refersTo hrefers
      rw [walk_nodes]
      exact ⟨j, start, stop, target, hrefers, hget, htarget⟩

/-- An alias in the second item of a sequence holds the first item, which is complete by then. -/
theorem compose_keeps_nodes_of_alias :
    ∃ root start stop target,
      compose (Source.ofText "- &x [1]\n- *x\n") "- &x [1]\n- *x\n".toList = .ok (some root) ∧
        (root.walk.map (·.node))[3]? = some (.alias start stop target) ∧
        (root.walk.map (·.node))[1]? = some target := by
  let tree : EventTree :=
    .sequence ⟨.sequenceStart none none, ⟨0, 1, 0⟩⟩ rfl
      [.sequence ⟨.sequenceStart (some "x") none, ⟨5, 1, 5⟩⟩ rfl
          [.leaf ⟨.scalar "1" .plain none none, ⟨6, 1, 6⟩⟩ rfl] ⟨.sequenceEnd, ⟨7, 1, 7⟩⟩ rfl,
        .leaf ⟨.alias "x", ⟨11, 2, 2⟩⟩ rfl] ⟨.sequenceEnd, ⟨14, 3, 0⟩⟩ rfl
  have hdocument : tree.IsDocument
      (⟨.documentStart, ⟨0, 1, 0⟩⟩ :: (tree.events ++ [⟨.documentEnd, ⟨14, 3, 0⟩⟩])) :=
    ⟨_, _, rfl, rfl, rfl⟩
  have hevents : Event.ofFirstDocument .document
      (Yaml.Scan.ofList .document "- &x [1]\n- *x\n".toList) =
        .ok (⟨.documentStart, ⟨0, 1, 0⟩⟩ :: (tree.events ++ [⟨.documentEnd, ⟨14, 3, 0⟩⟩])) := by
    decide +kernel
  obtain ⟨⟨e, hevents, _⟩, _⟩ | ⟨_, hkeeps⟩ :=
    compose_keeps_nodes (Source.ofText "- &x [1]\n- *x\n") hevents
  · cases hevents
  · obtain ⟨root, hroot, _, haliases⟩ := hkeeps tree hdocument (by decide +kernel)
    obtain ⟨j, start, stop, target, hrefers, hget, htarget⟩ := haliases 3 (by decide +kernel)
    have hone : ∀ j < 3, EventTree.RefersTo tree.nodes 3 j → j = 1 := by decide +kernel
    obtain rfl : j = 1 := hone j hrefers.1 hrefers
    exact ⟨root, start, stop, target, hroot, hget, htarget⟩

/-- An alias inside the node that it refers to is left out, and the node after it takes its place:
of the five nodes of this mapping two entries should come, but `p` is paired with `b`. -/
theorem compose_drops_inner_alias :
    ∃ (events : List Event) (tree : EventTree) (root : Node),
      Event.ofFirstDocument .document (Yaml.Scan.ofList .document "&a {p: *a, b: z}\n".toList) =
          .ok events ∧
        tree.IsDocument events ∧ tree.nodes.length = 5 ∧
        compose (Source.ofText "&a {p: *a, b: z}\n") "&a {p: *a, b: z}\n".toList =
          .ok (some root) ∧
        root.walk.length = 3 ∧
        root.entries.map (fun x => (x.1.text?, x.2.text?)) = [(some "p", some "b")] := by
  let tree : EventTree :=
    .mapping ⟨.mappingStart (some "a") none, ⟨3, 1, 3⟩⟩ rfl
      [(.leaf ⟨.scalar "p" .plain none none, ⟨4, 1, 4⟩⟩ rfl, .leaf ⟨.alias "a", ⟨7, 1, 7⟩⟩ rfl),
        (.leaf ⟨.scalar "b" .plain none none, ⟨11, 1, 11⟩⟩ rfl,
          .leaf ⟨.scalar "z" .plain none none, ⟨14, 1, 14⟩⟩ rfl)] ⟨.mappingEnd, ⟨15, 1, 15⟩⟩ rfl
  have hroot : (compose (Source.ofText "&a {p: *a, b: z}\n")
      "&a {p: *a, b: z}\n".toList).toOption.join.map (fun root =>
        (root.walk.length, root.entries.map (fun x => (x.1.text?, x.2.text?)))) =
      some (3, [(some "p", some "b")]) := by decide +kernel
  obtain ⟨root, hjoin, hshape⟩ := Option.map_eq_some_iff.mp hroot
  have hcompose : compose (Source.ofText "&a {p: *a, b: z}\n") "&a {p: *a, b: z}\n".toList =
      .ok (some root) := by
    generalize compose _ _ = result at hjoin
    cases result with
    | error e => cases hjoin
    | ok r => exact congrArg Except.ok hjoin
  obtain ⟨hlength, hentries⟩ := Prod.mk.inj hshape
  exact ⟨⟨.documentStart, ⟨0, 1, 0⟩⟩ :: (tree.events ++ [⟨.documentEnd, ⟨17, 2, 0⟩⟩]), tree, root,
    by decide +kernel, ⟨_, _, rfl, rfl, rfl⟩, by decide +kernel, hcompose, hlength, hentries⟩

end Node

end Blueprint
