import Blueprint.Table
import Blueprint.Yaml.Event

/-!
The tree of a settings text before its scalars are read as values. Aliases refer to anchors by
number: an anchor has the number of distinct names that were known before it, and the last anchor
with a number is the one that counts, wherever the alias stands.
-/

namespace Blueprint

open Yaml (Event EventKind ScalarStyle Uri)

inductive Draft where
  | scalar (text : String) (style : ScalarStyle) (tag : Option Uri)
  | list (items : List Draft) (tag : Option Uri)
  | mapping (entries : List (Draft × Draft)) (tag : Option Uri)
  | alias (anchor : Nat)

/-- The children of a collection that is still open, the last one first. -/
inductive DraftChildren where
  | items (done : List Draft)
  | entries (done : List (Draft × Draft)) (key : Option Draft)

/-- A collection that is still open. Anchored nodes are counted in the order in which they start;
`place` is that count. -/
structure OpenDraft where
  tag : Option Uri
  place : Option Nat
  children : DraftChildren

/-- A tree under construction. `numbers` gives the anchor number of a name, `places` the places of
an anchor number, both with the last one first. -/
structure Drafting where
  pending : List OpenDraft
  numbers : List (String × Nat)
  places : List (Nat × Nat)
  anchored : List (Nat × Draft)
  root : Option Draft

namespace OpenDraft

def add (f : OpenDraft) (d : Draft) : OpenDraft :=
  match f.children with
  | .items done => { f with children := .items (d :: done) }
  | .entries done none => { f with children := .entries done (some d) }
  | .entries done (some k) => { f with children := .entries ((k, d) :: done) none }

def close (f : OpenDraft) : Draft :=
  match f.children with
  | .items done => .list done.reverse f.tag
  | .entries done _ => .mapping done.reverse f.tag

end OpenDraft

namespace Drafting

def empty : Drafting := ⟨[], [], [], [], none⟩

/-- A tag as one URI. -/
def wholeTag (tag : Option Yaml.Tag) : Option Uri :=
  tag.map fun t => ⟨t.handle, false⟩ ++ t.suffix

/-- The names that are in use. -/
def nameCount (d : Drafting) : Nat :=
  (NameSet.ofNames (d.numbers.map (·.1))).entries.length

/-- Gives an anchor its number and its place. -/
def place (d : Drafting) : Option String → Drafting × Option Nat
  | none => (d, none)
  | some name =>
    let number := d.nameCount
    let place := d.places.length
    ({ d with numbers := (name, number) :: d.numbers, places := (number, place) :: d.places },
      some place)

def attach (d : Drafting) (draft : Draft) (place : Option Nat) : Drafting :=
  let d :=
    match place with
    | some place => { d with anchored := (place, draft) :: d.anchored }
    | none => d
  match d.pending with
  | [] => { d with root := d.root.or (some draft) }
  | f :: r => { d with pending := f.add draft :: r }

def openDraft (d : Drafting) (anchor : Option String) (tag : Option Yaml.Tag)
    (children : DraftChildren) : Drafting :=
  let (d, place) := d.place anchor
  { d with pending := ⟨wholeTag tag, place, children⟩ :: d.pending }

def step (d : Drafting) (e : Event) : Drafting :=
  match e.kind with
  | .scalar text style anchor tag =>
    let (d, place) := d.place anchor
    d.attach (.scalar text style (wholeTag tag)) place
  | .sequenceStart anchor tag => d.openDraft anchor tag (.items [])
  | .mappingStart anchor tag => d.openDraft anchor tag (.entries [] none)
  | .sequenceEnd | .mappingEnd =>
    match d.pending with
    | [] => d
    | f :: r => { d with pending := r }.attach f.close f.place
  | .alias name =>
    match d.numbers.lookup name with
    | some number => d.attach (.alias number) none
    | none => d
  | .streamEnd | .documentStart | .documentEnd => d

/-- The node that an anchor number stands for. -/
def target? (d : Drafting) (number : Nat) : Option Draft :=
  (d.places.lookup number).bind fun place => d.anchored.lookup place

end Drafting

/-- A document of settings: its tree, if it has one, the nodes of its anchors, and how often its
aliases may be followed. -/
structure DraftDocument where
  root : Option Draft
  target? : Nat → Option Draft
  jumps : Nat

namespace DraftDocument

/-- Settings hold no control characters but tabs and line ends. -/
def isAllowed (c : Char) : Bool :=
  let n := c.toNat
  n == 0x09 || n == 0x0A || n == 0x0D || (0x20 ≤ n && n ≤ 0x7E) || n == 0x85
    || (0xA0 ≤ n && n ≤ 0xD7FF) || (0xE000 ≤ n && n ≤ 0xFFFD) || 0x10000 ≤ n

/-- Whether an event belongs to a node: how often aliases may be followed grows with these. -/
def isNodePart (e : Event) : Bool :=
  match e.kind with
  | .streamEnd | .documentStart | .documentEnd => false
  | _ => true

/-- Reads a text with one document at most. -/
def ofText? (text : String) : Option DraftDocument :=
  let chars := text.toList
  if !chars.all isAllowed then none
  else
    match Event.ofStream .settings (Yaml.Scan.ofList .settings chars) with
    | .error _ => none
    | .ok events =>
      let documents := events.countP fun e => e.kind == .documentStart
      if 1 < documents then none
      else
        let built := events.foldl Drafting.step Drafting.empty
        some ⟨built.root, built.target?, 100 * events.countP isNodePart⟩

end DraftDocument

end Blueprint
