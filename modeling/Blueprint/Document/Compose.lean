import Blueprint.Document.Node
import Blueprint.Text.Blank
import Blueprint.Text.Source
import Blueprint.Yaml.Event

/-!
From events to the tree of a document. An anchor can be referred to once its node is complete.
-/

namespace Blueprint

open Yaml (Event EventKind ScalarStyle)

/-- The children of a collection that is still open, the last one first. -/
inductive OpenChildren where
  | items (done : List Node)
  | entries (done : List (Node × Node)) (key : Option Node)

/-- A collection that is still open, with the number of its anchor. -/
structure OpenNode where
  start : Mark
  flow : Bool
  anchor : Option Nat
  children : OpenChildren

/-- A tree under construction. Anchors are numbered in the order in which they are met. -/
structure Composition where
  pending : List OpenNode
  anchorCount : Nat
  names : List (String × Nat)
  anchored : List (Nat × Node)
  root : Option Node

namespace OpenNode

def add (f : OpenNode) (n : Node) : OpenNode :=
  match f.children with
  | .items done => { f with children := .items (n :: done) }
  | .entries done none => { f with children := .entries done (some n) }
  | .entries done (some k) => { f with children := .entries ((k, n) :: done) none }

/-- The node of a collection that ends at `stop`. A block mapping starts at its first key; a key
without a value is left out. -/
def close (f : OpenNode) (stop : Mark) : Node :=
  match f.children with
  | .items done => .sequence f.start stop f.flow done.reverse
  | .entries done _ =>
    let entries := done.reverse
    let start :=
      match entries with
      | (k, _) :: _ => if f.flow then f.start else k.start
      | [] => f.start
    .mapping start stop f.flow entries

end OpenNode

namespace Composition

def empty : Composition := ⟨[], 0, [], [], none⟩

/-- Puts a complete node in its place. Only the first node of a document becomes its root. -/
def attach (c : Composition) (n : Node) (anchor : Option Nat) : Composition :=
  let c :=
    match anchor with
    | some number => { c with anchored := (number, n) :: c.anchored }
    | none => c
  match c.pending with
  | [] => { c with root := c.root.or (some n) }
  | f :: r => { c with pending := f.add n :: r }

/-- Gives a number to an anchor. -/
def number (c : Composition) : Option String → Composition × Option Nat
  | none => (c, none)
  | some name =>
    ({ c with anchorCount := c.anchorCount + 1, names := (name, c.anchorCount) :: c.names },
      some c.anchorCount)

def openNode (c : Composition) (start : Mark) (flow : Bool) (anchor : Option String)
    (children : OpenChildren) : Composition :=
  let (c, anchor) := c.number anchor
  { c with pending := ⟨start, flow, anchor, children⟩ :: c.pending }

def scalarNode (source : Source) (mark : Mark) (text : String) (style : ScalarStyle)
    (tag : Option Yaml.Tag) : Node :=
  let text := if text = "~" ∧ source.char? mark.index ≠ some '~' then "" else text
  let width := if style = .plain then text.length else 0
  .scalar mark (source.markAt (mark.index + width)) text style (tag.any (·.suffix.text = "str"))

/-- The index after the name of an alias. -/
def aliasStop (source : Source) (index : Nat) : Nat :=
  let name := (source.slice (index + 1) source.size).takeWhile fun c =>
    !(Text.isBlank c || Yaml.isFlowIndicator c)
  index + 1 + name.length

/-- An alias to a node that is not complete leaves no node. -/
def step (source : Source) (c : Composition) (e : Event) : Composition :=
  match e.kind with
  | .scalar text style anchor tag =>
    let (c, anchor) := c.number anchor
    c.attach (scalarNode source e.mark text style tag) anchor
  | .sequenceStart anchor _ =>
    c.openNode e.mark (source.char? e.mark.index = some '[') anchor (.items [])
  | .mappingStart anchor _ =>
    c.openNode e.mark (source.char? e.mark.index = some '{') anchor (.entries [] none)
  | .sequenceEnd | .mappingEnd =>
    match c.pending with
    | [] => c
    | f :: r => { c with pending := r }.attach (f.close e.mark) f.anchor
  | .alias name =>
    match (c.names.lookup name).bind (fun number => c.anchored.lookup number) with
    | some target =>
      c.attach (.alias e.mark (source.markAt (aliasStop source e.mark.index)) target) none
    | none => c
  | .streamEnd | .documentStart | .documentEnd => c

end Composition

namespace Node

/-- The tree of the first document, if it has one. -/
def ofEvents (source : Source) (events : List Event) : Option Node :=
  (events.foldl (Composition.step source) Composition.empty).root

/-- Reads the first document of a text. -/
def compose (source : Source) (text : List Char) : Except Yaml.ScanError (Option Node) :=
  (Event.ofFirstDocument .document (Yaml.Scan.ofList .document text)).map (ofEvents source)

end Node

end Blueprint
