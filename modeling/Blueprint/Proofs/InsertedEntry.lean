import Blueprint.Proofs.InsertedTokens
import Blueprint.Proofs.ValueLikeness

/-!
The tree of a document in which one mapping has got one more entry, in front of its first key.
-/

namespace Blueprint

open Yaml (Event)

/-- Whether a node is the first key of the mapping. -/
def Insertion.IsFirst (w : Insertion) (n : Node) : Prop :=
  n.start = w.place ∧ n.text? = some w.word

namespace Node

/-- The entry itself. -/
inductive IsEntry (w : Insertion) : Node × Node → Prop where
  | intro (start stop start' stop' : Mark) :
    IsEntry w (.scalar start stop w.key .plain false, .scalar start' stop' w.text w.style false)

mutual

/-- Two trees that differ in places, and in the entry of the mapping with the first key, only. If an
alias to a node that is not complete leaves the first key without a value, its mapping is hollow but
for the entry. -/
inductive Extended (w : Insertion) : Node → Node → Prop where
  | scalar (start stop start' stop' : Mark) (text : String) (style : Yaml.ScalarStyle)
    (textTag : Bool) :
    Extended w (.scalar start stop text style textTag) (.scalar start' stop' text style textTag)
  | sequence (start stop start' stop' : Mark) (flow flow' : Bool) {items items' : List Node}
    (h : ItemsExtended w items items') :
    Extended w (.sequence start stop flow items) (.sequence start' stop' flow' items')
  | mapping (start stop start' stop' : Mark) (flow flow' : Bool) {entries entries' : List (Node × Node)}
    (hother : ∀ e ∈ entries.head?, ¬w.IsFirst e.1) (h : EntriesExtended w entries entries') :
    Extended w (.mapping start stop flow entries) (.mapping start' stop' flow' entries')
  | entry (start stop start' stop' : Mark) (flow flow' : Bool) {e : Node × Node}
    {entries entries' : List (Node × Node)} (hfirst : ∃ e ∈ entries.head?, w.IsFirst e.1)
    (he : IsEntry w e) (h : EntriesExtended w entries entries') :
    Extended w (.mapping start stop flow entries) (.mapping start' stop' flow' (e :: entries'))
  | hollow (stop start' stop' : Mark) (flow flow' : Bool) {e : Node × Node} (he : IsEntry w e) :
    Extended w (.mapping w.opening stop flow []) (.mapping start' stop' flow' [e])
  | alias (start stop start' stop' : Mark) {target target' : Node} (h : Extended w target target') :
    Extended w (.alias start stop target) (.alias start' stop' target')

inductive ItemsExtended (w : Insertion) : List Node → List Node → Prop where
  | nil : ItemsExtended w [] []
  | cons {n n' : Node} {r r' : List Node} (h : Extended w n n') (hr : ItemsExtended w r r') :
    ItemsExtended w (n :: r) (n' :: r')

inductive EntriesExtended (w : Insertion) : List (Node × Node) → List (Node × Node) → Prop where
  | nil : EntriesExtended w [] []
  | cons {k k' v v' : Node} {r r' : List (Node × Node)} (hk : Extended w k k') (hv : Extended w v v')
    (hr : EntriesExtended w r r') : EntriesExtended w ((k, v) :: r) ((k', v') :: r')

end

/-- The keys and the values of two entries differ in the one entry only. -/
def EntryExtended (w : Insertion) (e e' : Node × Node) : Prop :=
  Extended w e.1 e'.1 ∧ Extended w e.2 e'.2

variable {w : Insertion}

theorem itemsExtended_of {items items' : List Node} (h : List.Forall₂ (Extended w) items items') :
    ItemsExtended w items items' := by
  induction h with
  | nil => exact .nil
  | cons h _ ih => exact .cons h ih

theorem entriesExtended_of {entries entries' : List (Node × Node)}
    (h : List.Forall₂ (EntryExtended w) entries entries') : EntriesExtended w entries entries' := by
  induction h with
  | nil => exact .nil
  | cons h _ ih => exact .cons h.1 h.2 ih

end Node

/-- The key that an open mapping starts with, complete or not. -/
def OpenChildren.firstKey? : OpenChildren → Option Node
  | .items _ => none
  | .entries done key => (done.getLast?.map (·.1)).or key

namespace OpenChildren

variable {done : List (Node × Node)} {key : Option Node} {k n : Node}

theorem mem_firstKey?_of_key (h : k ∈ (entries done (some n)).firstKey?) :
    k ∈ (entries done none).firstKey? ∨ k = n := by
  cases hdone : done.getLast?.map (·.1) with
  | none =>
    rw [firstKey?, hdone] at h
    exact Or.inr (Option.some.inj h).symm
  | some first =>
    rw [firstKey?, hdone] at h ⊢
    exact Or.inl h

theorem firstKey?_of_key (h : k ∈ (entries done none).firstKey?) :
    k ∈ (entries done (some n)).firstKey? := by
  cases hdone : done.getLast?.map (·.1) with
  | none =>
    rw [firstKey?, hdone] at h
    cases h
  | some first =>
    rw [firstKey?, hdone] at h ⊢
    exact h

theorem firstKey?_of_value : (entries ((k, n) :: done) none).firstKey? =
    (entries done (some k)).firstKey? := by
  rw [firstKey?, firstKey?, List.getLast?_cons]
  cases done.getLast? <;> rfl

theorem firstKey?_eq_head (hdone : done ≠ []) :
    (entries done key).firstKey? = done.reverse.head?.map (·.1) := by
  rw [firstKey?, List.head?_reverse, List.getLast?_eq_some_getLast hdone]
  rfl

end OpenChildren

namespace Composition

/-- The children of two open collections differ in the entry only. -/
inductive ChildrenExtended (w : Insertion) (start : Mark) : OpenChildren → OpenChildren → Prop where
  | items {done done' : List Node} (h : List.Forall₂ (Node.Extended w) done done') :
    ChildrenExtended w start (.items done) (.items done')
  | entries {done done' : List (Node × Node)} {key key' : Option Node}
    (hother : ∀ k ∈ (OpenChildren.entries done key).firstKey?, ¬w.IsFirst k)
    (h : List.Forall₂ (Node.EntryExtended w) done done')
    (hkey : Option.Rel (Node.Extended w) key key') :
    ChildrenExtended w start (.entries done key) (.entries done' key')
  | entry {e : Node × Node} {done done' : List (Node × Node)} {key key' : Option Node}
    (hstart : start = w.opening)
    (hfirst : ∃ k ∈ (OpenChildren.entries done key).firstKey?, w.IsFirst k) (he : Node.IsEntry w e)
    (h : List.Forall₂ (Node.EntryExtended w) done done')
    (hkey : Option.Rel (Node.Extended w) key key') :
    ChildrenExtended w start (.entries done key) (.entries (done' ++ [e]) key')

structure OpenExtended (w : Insertion) (f f' : OpenNode) : Prop where
  anchor : f'.anchor = f.anchor
  children : ChildrenExtended w f.start f.children f'.children

/-- Nodes that differ in the entry only, and are not the first key. -/
def NodesExtended (w : Insertion) (n n' : Node) : Prop :=
  Node.Extended w n n' ∧ ¬w.IsFirst n

variable {w : Insertion} {n n' : Node} {f f' : OpenNode}

theorem OpenExtended.add (h : OpenExtended w f f') (hn : NodesExtended w n n') :
    OpenExtended w (f.add n) (f'.add n') := by
  obtain ⟨start, flow, anchor, children⟩ := f
  obtain ⟨start', flow', anchor', children'⟩ := f'
  obtain ⟨hanchor, hchildren⟩ := h
  obtain ⟨hn, hother⟩ := hn
  cases hchildren with
  | items h => exact ⟨hanchor, .items (.cons hn h)⟩
  | entries hnone h hkey =>
    cases hkey with
    | none =>
      refine ⟨hanchor, .entries (fun k hk => ?_) h (.some hn)⟩
      rcases OpenChildren.mem_firstKey?_of_key hk with hk | rfl
      · exact hnone k hk
      · exact hother
    | some hk =>
      exact ⟨hanchor, .entries (OpenChildren.firstKey?_of_value ▸ hnone) (.cons ⟨hk, hn⟩ h) .none⟩
  | entry hstart hfirst he h hkey =>
    cases hkey with
    | none =>
      obtain ⟨k, hk, hfirst⟩ := hfirst
      exact ⟨hanchor, .entry hstart ⟨k, OpenChildren.firstKey?_of_key hk, hfirst⟩ he h (.some hn)⟩
    | some hk =>
      exact ⟨hanchor, .entry hstart (OpenChildren.firstKey?_of_value ▸ hfirst) he
        (.cons ⟨hk, hn⟩ h) .none⟩

theorem OpenExtended.close (h : OpenExtended w f f') (stop stop' : Mark) :
    NodesExtended w (f.close stop) (f'.close stop') := by
  obtain ⟨start, flow, anchor, children⟩ := f
  obtain ⟨start', flow', anchor', children'⟩ := f'
  obtain ⟨hanchor, hchildren⟩ := h
  cases hchildren with
  | items h =>
    exact ⟨.sequence _ _ _ _ _ _ (Node.itemsExtended_of (List.rel_reverse h)), nofun⟩
  | @entries done done' key key' hnone h hkey =>
    refine ⟨.mapping _ _ _ _ _ _ (fun e he => ?_)
      (Node.entriesExtended_of (List.rel_reverse h)), nofun⟩
    have hne : done ≠ [] := by
      rintro rfl
      cases he
    exact hnone e.1 (by rw [OpenChildren.firstKey?_eq_head hne]; exact Option.mem_map_of_mem _ he)
  | @entry e done done' key key' hstart hfirst he h hkey =>
    obtain rfl : start = w.opening := hstart
    have hentries := Node.entriesExtended_of (List.rel_reverse h)
    have hclose : (done' ++ [e]).reverse = e :: done'.reverse := List.reverse_append
    by_cases hdone : done = []
    · subst hdone
      cases h
      exact ⟨.hollow _ _ _ _ _ he, nofun⟩
    · obtain ⟨k, hk, hfirst⟩ := hfirst
      rw [OpenChildren.firstKey?_eq_head hdone] at hk
      obtain ⟨first, hmem, rfl⟩ := Option.map_eq_some_iff.mp hk
      refine ⟨?_, nofun⟩
      unfold OpenNode.close
      dsimp only
      rw [hclose]
      exact .entry _ _ _ _ _ _ ⟨first, hmem, hfirst⟩ he hentries

theorem scalarNode_extended {m m' : Mark} (hm : Yaml.TildeAlike w.rewriting m m') (text : String)
    (style : Yaml.ScalarStyle) (tag : Option Yaml.Tag) :
    Node.Extended w (scalarNode w.old m text style tag) (scalarNode w.new m' text style tag) := by
  have htext : (if text = "~" ∧ w.new.char? m'.index ≠ some '~' then "" else text) =
      if text = "~" ∧ w.old.char? m.index ≠ some '~' then "" else text :=
    if_congr (and_congr_right fun _ => not_congr hm.symm) rfl rfl
  unfold scalarNode
  dsimp only
  rw [htext]
  exact .scalar _ _ _ _ _ _ _

/-- A scalar whose text is not taken for a missing node. -/
theorem scalarNode_text (source : Source) {m : Mark} {text : String}
    (h : text = "~" → source.char? m.index = some '~') (style : Yaml.ScalarStyle) :
    ∃ stop, scalarNode source m text style none = .scalar m stop text style false := by
  have htext : (if text = "~" ∧ source.char? m.index ≠ some '~' then "" else text) = text :=
    if_neg fun hmissing => hmissing.2 (h hmissing.1)
  unfold scalarNode
  rw [htext]
  exact ⟨_, rfl⟩

theorem not_isFirst_scalarNode (hw : w.Written) {e : Event} {text : String}
    {style : Yaml.ScalarStyle} {anchor : Option String} {tag : Option Yaml.Tag}
    (he : e.kind = .scalar text style anchor tag)
    (hapart : ∀ style anchor tag, e.kind = .scalar w.word style anchor tag → e.mark ≠ w.place) :
    ¬w.IsFirst (scalarNode w.old e.mark text style tag) := by
  rintro ⟨hplace, hword⟩
  have hword : (if text = "~" ∧ w.old.char? e.mark.index ≠ some '~' then "" else text) = w.word :=
    Option.some.inj hword
  split at hword
  · exact hw.1 hword.symm
  · exact hapart style anchor tag (hword ▸ he) hplace

/-- Events that are kept build trees that differ in the entry only. -/
def extendedTrees (w : Insertion) (hw : w.Written) : TreeMatching where
  old := w.old
  new := w.new
  event := Yaml.Event.Kept w
  node := NodesExtended w
  frame := OpenExtended w
  kind h := (alikeTrees w.rewriting).kind h.alike
  scalar {e e' text text' style style' anchor tag} h he he' := by
    have htilde : Yaml.TildeAlike w.rewriting e.mark e'.mark :=
      h.alike.tilde.resolve_left (by rw [he]; nofun)
    have hkind := h.alike.kind
    rw [he, he'] at hkind
    cases hkind with
    | same => exact ⟨scalarNode_extended htilde text style tag, not_isFirst_scalarNode hw he h.apart⟩
    | boolean _ _ _ hword => cases hword
  items _ _ _ := ⟨rfl, .items .nil⟩
  entries _ _ _ := ⟨rfl, .entries nofun .nil .none⟩
  anchor h := h.anchor
  add := OpenExtended.add
  close := OpenExtended.close
  target h _ _ _ _ := ⟨.alias _ _ _ _ h.1, nofun⟩

/-- Behind the start of a mapping its node is open, without any children. -/
def Opened (e : Event) (c : Composition) : Prop :=
  ∀ anchor tag, e.kind = .mappingStart anchor tag →
    ∃ flow number r, c.pending = ⟨e.mark, flow, number, .entries [] none⟩ :: r

theorem opened_step (source : Source) (c : Composition) (e : Event) :
    Opened e (c.step source e) := by
  intro anchor tag he
  unfold step
  rw [he]
  exact ⟨_, _, _, rfl⟩

variable {c c' : Composition}

/-- A scalar without an anchor goes to the innermost open collection. -/
theorem step_scalar (source : Source) {m : Mark} {text : String} {style : Yaml.ScalarStyle}
    {r : List OpenNode} (hc : c.pending = f :: r) :
    c.step source ⟨.scalar text style none none, m⟩ =
      { c with pending := f.add (scalarNode source m text style none) :: r } := by
  show c.attach _ none = _
  unfold attach
  dsimp only
  rw [hc]

/-- The events of the entry put it into the mapping that is open. -/
theorem extended_entry (hw : w.Written) (hc : (extendedTrees w hw).Compositions c c')
    {anchor : Option String} {tag : Option Yaml.Tag} {style : Yaml.ScalarStyle} {m m₁ m₂ : Mark}
    (hopened : Opened ⟨.mappingStart anchor tag, w.opening⟩ c) (hkey : w.TildeWritten w.key m₁)
    (htext : w.TildeWritten w.text m₂) (htilde : Yaml.TildeAlike w.rewriting w.place m) :
    (extendedTrees w hw).Compositions (c.step w.old ⟨.scalar w.word style none none, w.place⟩)
      (((c'.step w.new ⟨.scalar w.key .plain none none, m₁⟩).step w.new
        ⟨.scalar w.text w.style none none, m₂⟩).step w.new ⟨.scalar w.word style none none, m⟩) := by
  obtain ⟨flow, number, r, hpending⟩ := hopened anchor tag rfl
  have hword : w.word = "~" → w.old.char? w.place.index = some '~' := fun h => absurd h hw.2
  obtain ⟨stop, hfirst⟩ := scalarNode_text w.old hword style
  obtain ⟨stop₁, hlabel⟩ := scalarNode_text w.new hkey .plain
  obtain ⟨stop₂, hvalue⟩ := scalarNode_text w.new htext w.style
  have hnode : Node.Extended w (scalarNode w.old w.place w.word style none)
      (scalarNode w.new m w.word style none) := scalarNode_extended htilde w.word style none
  have hframes := hc.pending
  rw [hpending] at hframes
  generalize hpending' : c'.pending = pending' at hframes
  cases hframes with
  | @cons _ f' _ r' hf hr =>
    rw [step_scalar w.old hpending, step_scalar w.new hpending', step_scalar w.new rfl,
      step_scalar w.new rfl]
    refine ⟨.cons ?_ hr, hc.anchorCount, hc.names, hc.anchored, hc.root⟩
    obtain ⟨start', flow', anchor', children'⟩ := f'
    obtain ⟨hanchor, hchildren⟩ := hf
    cases hchildren with
    | entries _ hdone hnone =>
      cases hdone
      cases hnone
      refine ⟨hanchor, .entry rfl ⟨_, rfl, ?_⟩ ?_ .nil (.some hnode)⟩
      · rw [hfirst]
        exact ⟨rfl, rfl⟩
      · rw [hlabel, hvalue]
        exact .intro _ _ _ _
    | entry _ hnone =>
      obtain ⟨_, hk, _⟩ := hnone
      cases hk

/-- Events with those of the entry among them build a tree with the entry. -/
theorem extended_of_inserted (hw : w.Written) {e : Event} {es es' : List Event}
    (hevents : Yaml.EventsInserted w e es es') (hc : (extendedTrees w hw).Compositions c c')
    (hopened : Opened e c) :
    Option.Rel (NodesExtended w) (es.foldl (step w.old) c).root
      (es'.foldl (step w.new) c').root := by
  -- The induction is on the events before the entry.
  induction hevents generalizing c c' with
  | nil => exact hc.root
  | keep e hf _ ih => exact ih (hc.step hf) (opened_step _ _ _)
  | entry anchor tag style hkey htext htilde h =>
    exact ((extended_entry hw hc hopened hkey htext htilde).foldl h).root

end Composition

/-- Tokens with those of the entry among them lead to a document with the entry. -/
theorem Node.compose_extended {w : Insertion} {n : Nat} {text text' : List Char}
    {root : Option Node} (hw : w.Written)
    (htokens : Yaml.TokensInserted w n (Yaml.Scan.ofList .document text).tokens
      (Yaml.Scan.ofList .document text').tokens)
    (hcompose : compose w.old text = .ok root) :
    ∃ root', compose w.new text' = .ok root' ∧ Option.Rel (Extended w) root root' := by
  have hmirrors := Yaml.Event.ofFirstDocument_inserted (d := .document) hw htokens
    ⟨.streamEnd, w.place⟩
  unfold compose at hcompose ⊢
  cases hevents : Yaml.Event.ofFirstDocument .document (Yaml.Scan.ofList .document text) with
  | error e =>
    rw [hevents] at hcompose
    cases hcompose
  | ok events =>
    rw [hevents] at hcompose
    cases hcompose
    obtain ⟨events', hevents', hinserted⟩ := hmirrors events hevents
    have hroots : Option.Rel (Composition.NodesExtended w) (ofEvents w.old events)
        (ofEvents w.new events') := Composition.extended_of_inserted hw hinserted (.empty _) nofun
    rw [hevents']
    refine ⟨ofEvents w.new events', rfl, ?_⟩
    revert hroots
    generalize ofEvents w.old events = root
    generalize ofEvents w.new events' = root'
    rintro (h | _)
    · exact .some h.1
    · exact .none

end Blueprint
