import Mathlib.Data.List.Forall2
import Blueprint.Document.Compose

/-!
Two trees that are built from events that match. The nodes match as soon as what they are built from
does, and an alias matches if its target does.
-/

namespace Blueprint

open Yaml (Event EventKind ScalarStyle)

/-- The kinds of events that build trees of one shape: equal ones, and two scalars that differ in
their text and its style. -/
inductive Yaml.EventKind.Matches : EventKind → EventKind → Prop where
  | same (k : EventKind) : Matches k k
  | scalars (text : String) (style : ScalarStyle) (text' : String) (style' : ScalarStyle)
    (anchor : Option String) (tag : Option Tag) :
    Matches (.scalar text style anchor tag) (.scalar text' style' anchor tag)

/-- When the events of two texts match, and the nodes and the open collections that are built from
them. -/
structure TreeMatching where
  old : Source
  new : Source
  event : Event → Event → Prop
  node : Node → Node → Prop
  frame : OpenNode → OpenNode → Prop
  kind : ∀ {e e' : Event}, event e e' → Yaml.EventKind.Matches e.kind e'.kind
  scalar : ∀ {e e' : Event} {text text' : String} {style style' : ScalarStyle}
    {anchor : Option String} {tag : Option Yaml.Tag}, event e e' →
    e.kind = .scalar text style anchor tag → e'.kind = .scalar text' style' anchor tag →
    node (Composition.scalarNode old e.mark text style tag)
      (Composition.scalarNode new e'.mark text' style' tag)
  items : ∀ {e e' : Event} {anchor : Option String} {tag : Option Yaml.Tag}, event e e' →
    e.kind = .sequenceStart anchor tag → ∀ number : Option Nat,
    frame ⟨e.mark, old.char? e.mark.index = some '[', number, .items []⟩
      ⟨e'.mark, new.char? e'.mark.index = some '[', number, .items []⟩
  entries : ∀ {e e' : Event} {anchor : Option String} {tag : Option Yaml.Tag}, event e e' →
    e.kind = .mappingStart anchor tag → ∀ number : Option Nat,
    frame ⟨e.mark, old.char? e.mark.index = some '\x7b', number, .entries [] none⟩
      ⟨e'.mark, new.char? e'.mark.index = some '\x7b', number, .entries [] none⟩
  anchor : ∀ {f f' : OpenNode}, frame f f' → f'.anchor = f.anchor
  add : ∀ {f f' : OpenNode} {n n' : Node}, frame f f' → node n n' → frame (f.add n) (f'.add n')
  close : ∀ {f f' : OpenNode}, frame f f' → ∀ stop stop' : Mark,
    node (f.close stop) (f'.close stop')
  target : ∀ {n n' : Node}, node n n' → ∀ start stop start' stop' : Mark,
    node (.alias start stop n) (.alias start' stop' n')

namespace TreeMatching

/-- Two trees under construction whose parts match. -/
structure Compositions (M : TreeMatching) (c c' : Composition) : Prop where
  pending : List.Forall₂ M.frame c.pending c'.pending
  anchorCount : c'.anchorCount = c.anchorCount
  names : c'.names = c.names
  anchored : List.Forall₂ (fun a a' => a'.1 = a.1 ∧ M.node a.2 a'.2) c.anchored c'.anchored
  root : Option.Rel M.node c.root c'.root

variable {M : TreeMatching} {c c' : Composition} {n n' : Node} {e e' : Event}

namespace Compositions

theorem empty (M : TreeMatching) : M.Compositions .empty .empty :=
  ⟨.nil, rfl, rfl, .nil, .none⟩

theorem attach (h : M.Compositions c c') (hn : M.node n n') (anchor : Option Nat) :
    M.Compositions (c.attach n anchor) (c'.attach n' anchor) := by
  have hplace : ∀ {c c' : Composition}, M.Compositions c c' →
      M.Compositions (c.attach n none) (c'.attach n' none) := by
    intro c c' h
    obtain ⟨pending, count, names, anchored, root⟩ := c
    obtain ⟨pending', count', names', anchored', root'⟩ := c'
    obtain ⟨hpending, hcount, hnames, hanchored, hroot⟩ := h
    cases hpending with
    | nil =>
      refine ⟨.nil, hcount, hnames, hanchored, ?_⟩
      cases hroot with
      | none => exact .some hn
      | some hr => exact .some hr
    | cons hf hr => exact ⟨.cons (M.add hf hn) hr, hcount, hnames, hanchored, hroot⟩
  cases anchor with
  | none => exact hplace h
  | some number =>
    have hanchored : M.Compositions { c with anchored := (number, n) :: c.anchored }
        { c' with anchored := (number, n') :: c'.anchored } :=
      ⟨h.pending, h.anchorCount, h.names, .cons ⟨rfl, hn⟩ h.anchored, h.root⟩
    exact hplace hanchored

theorem number (h : M.Compositions c c') (anchor : Option String) :
    M.Compositions (c.number anchor).1 (c'.number anchor).1 ∧
      (c'.number anchor).2 = (c.number anchor).2 := by
  cases anchor with
  | none => exact ⟨h, rfl⟩
  | some name =>
    refine ⟨⟨h.pending, ?_, ?_, h.anchored, h.root⟩, ?_⟩
    · exact congrArg (· + 1) h.anchorCount
    · show (name, c'.anchorCount) :: c'.names = (name, c.anchorCount) :: c.names
      rw [h.anchorCount, h.names]
    · exact congrArg some h.anchorCount

theorem openNode (h : M.Compositions c c') {start start' : Mark} {flow flow' : Bool}
    (anchor : Option String) {children children' : OpenChildren}
    (hframe : ∀ number, M.frame ⟨start, flow, number, children⟩ ⟨start', flow', number, children'⟩) :
    M.Compositions (c.openNode start flow anchor children)
      (c'.openNode start' flow' anchor children') := by
  obtain ⟨hnumber, hanchor⟩ := h.number anchor
  have hnew := hframe (c.number anchor).2
  refine ⟨.cons ?_ hnumber.pending, hnumber.anchorCount, hnumber.names, hnumber.anchored,
    hnumber.root⟩
  show M.frame ⟨start, flow, (c.number anchor).2, children⟩
    ⟨start', flow', (c'.number anchor).2, children'⟩
  rwa [hanchor]

/-- The innermost collection ends. -/
theorem close (h : M.Compositions c c') (stop stop' : Mark) :
    M.Compositions
      (match c.pending with
        | [] => c
        | f :: r => { c with pending := r }.attach (f.close stop) f.anchor)
      (match c'.pending with
        | [] => c'
        | f :: r => { c' with pending := r }.attach (f.close stop') f.anchor) := by
  obtain ⟨pending, count, names, anchored, root⟩ := c
  obtain ⟨pending', count', names', anchored', root'⟩ := c'
  obtain ⟨hpending, hcount, hnames, hanchored, hroot⟩ := h
  cases hpending with
  | nil => exact ⟨.nil, hcount, hnames, hanchored, hroot⟩
  | @cons f f' r r' hf hr =>
    have hrest : M.Compositions ⟨r, count, names, anchored, root⟩
        ⟨r', count', names', anchored', root'⟩ := ⟨hr, hcount, hnames, hanchored, hroot⟩
    dsimp only
    rw [M.anchor hf]
    exact hrest.attach (M.close hf stop stop') _

theorem lookup {anchored anchored' : List (Nat × Node)}
    (h : List.Forall₂ (fun a a' => a'.1 = a.1 ∧ M.node a.2 a'.2) anchored anchored')
    (number : Nat) : Option.Rel M.node (anchored.lookup number) (anchored'.lookup number) := by
  induction h with
  | nil => exact .none
  | @cons a a' r r' h _ ih =>
    obtain ⟨k, n⟩ := a
    obtain ⟨k', n'⟩ := a'
    obtain ⟨hk, hn⟩ := h
    dsimp only at hk
    rw [List.lookup_cons, List.lookup_cons, hk]
    split
    · exact .some hn
    · exact ih

theorem step (h : M.Compositions c c') (he : M.event e e') :
    M.Compositions (c.step M.old e) (c'.step M.new e') := by
  obtain ⟨k, m⟩ := e
  obtain ⟨k', m'⟩ := e'
  have hk : Yaml.EventKind.Matches k k' := M.kind he
  have hscalar {text text' : String} {style style' : ScalarStyle} {anchor : Option String}
      {tag : Option Yaml.Tag} (hk : k = .scalar text style anchor tag)
      (hk' : k' = .scalar text' style' anchor tag) :
      M.Compositions (c.step M.old ⟨k, m⟩) (c'.step M.new ⟨k', m'⟩) := by
    obtain ⟨hnumber, hanchor⟩ := h.number anchor
    have hnode := M.scalar he hk hk'
    subst hk hk'
    show M.Compositions
      ((c.number anchor).1.attach (Composition.scalarNode M.old m text style tag)
        (c.number anchor).2)
      ((c'.number anchor).1.attach (Composition.scalarNode M.new m' text' style' tag)
        (c'.number anchor).2)
    rw [hanchor]
    exact hnumber.attach hnode _
  cases hk with
  | scalars text style text' style' anchor tag => exact hscalar rfl rfl
  | same =>
    cases k with
    | scalar text style anchor tag => exact hscalar rfl rfl
    | sequenceStart anchor tag => exact h.openNode anchor (M.items he rfl)
    | mappingStart anchor tag => exact h.openNode anchor (M.entries he rfl)
    | sequenceEnd => exact h.close m m'
    | mappingEnd => exact h.close m m'
    | «alias» name =>
      have hlookup : Option.Rel M.node
          ((c.names.lookup name).bind fun number => c.anchored.lookup number)
          ((c'.names.lookup name).bind fun number => c'.anchored.lookup number) := by
        rw [h.names]
        cases c.names.lookup name with
        | none => exact .none
        | some number => exact lookup h.anchored number
      unfold Composition.step
      dsimp only
      revert hlookup
      generalize ((c.names.lookup name).bind fun number => c.anchored.lookup number) = target
      generalize ((c'.names.lookup name).bind fun number => c'.anchored.lookup number) = target'
      intro hlookup
      cases hlookup with
      | none => exact h
      | some hn => exact h.attach (M.target hn _ _ _ _) none
    | streamEnd => exact h
    | documentStart => exact h
    | documentEnd => exact h

theorem foldl {events events' : List Event} (hevents : List.Forall₂ M.event events events')
    (h : M.Compositions c c') :
    M.Compositions (events.foldl (Composition.step M.old) c)
      (events'.foldl (Composition.step M.new) c') := by
  induction hevents generalizing c c' with
  | nil => exact h
  | cons he _ ih => exact ih (h.step he)

end Compositions

end TreeMatching

end Blueprint
