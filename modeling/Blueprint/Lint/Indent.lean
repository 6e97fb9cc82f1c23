import Blueprint.Document.Element
import Blueprint.Lint.Option

/-!
Expected indentation. A stack holds the collections, keys and values around a token, each with the
column at which its children are expected. The unit of indentation and the indentation of sequences
below keys can be fixed beforehand or taken from their first occurrence.
-/

namespace Blueprint

open Yaml (TokenKind)

inductive FrameKind where
  | root
  | blockMapping
  | flowMapping
  | blockSequence
  | flowSequence
  | blockEntry
  | key
  | value
deriving DecidableEq

/-- One entry of the stack. `lineIndent` is the indentation of the line on which a flow collection
was opened; an `implicit` sequence was opened by its first entry. -/
structure Frame where
  kind : FrameKind
  indent : Int
  lineIndent : Option Int := none
  explicitKey : Bool := false
  implicit : Bool := false
deriving DecidableEq

/-- How sequences below keys are indented. -/
inductive SequenceIndent where
  | indented
  | notIndented
  | whatever
  /-- Like the first one. -/
  | consistent
deriving DecidableEq

def SequenceIndent.ofOption (s : String) : SequenceIndent :=
  if s = "true" then indented
  else if s = "false" then notIndented
  else if s = "whatever" then whatever
  else consistent

/-- The state of the indentation check; the innermost frame comes first. -/
structure Indentation where
  frames : List Frame := []
  /-- The last line that holds a visible token. -/
  line : Nat := 0
  /-- The indentation of that line. -/
  lineIndent : Int := 0
  /-- The unit, once it is known. -/
  unit : Option Int := none
  sequences : SequenceIndent := .consistent
deriving DecidableEq

namespace Indentation

def start (unit : Option Int) (sequences : SequenceIndent) : Indentation :=
  { frames := [⟨.root, 0, none, false, false⟩], unit, sequences }

def push (s : Indentation) (f : Frame) : Indentation :=
  { s with frames := f :: s.frames }

def top? (s : Indentation) : Option Frame :=
  s.frames.head?

/-- The column expected of a child of `base`; an unknown unit is taken from where it is found. -/
def expect (s : Indentation) (base : Int) (found : Lexeme) : Int × Indentation :=
  match s.unit with
  | some unit => (base + unit, s)
  | none =>
    let unit := (found.start.column : Int) - base
    (base + unit, { s with unit := some unit })

def showsText (l : Lexeme) : Bool :=
  match l.kind with
  | .streamStart | .streamEnd | .blockEnd => false
  | .scalar text _ => !text.isEmpty
  | _ => true

def hasQuestionMark (l : Lexeme) : Bool :=
  l.kind == .key && l.start.index < l.stop.index

/-- The last line with text of a token. A block scalar stops at the start of a later line. -/
def lastLine (l : Lexeme) : Nat :=
  if l.isScalar && l.stop.column == 0 && l.start.line < l.stop.line then l.stop.line - 1
  else l.stop.line

def isDecoration : TokenKind → Bool
  | .anchor _ | .tag _ => true
  | _ => false

def isFlowEnd : TokenKind → Bool
  | .flowMappingEnd | .flowSequenceEnd => true
  | _ => false

/-- Opens the frame of a collection at the column of its first token. -/
def openBlock (s : Indentation) (kind : FrameKind) (first : TokenKind) (t : TokenView) :
    Option Indentation :=
  match t.next with
  | some next =>
    if next.kind = first ∧ next.start.line = t.curr.start.line then
      some (s.push { kind, indent := t.curr.start.column })
    else none
  | none => none

def openFlow (s : Indentation) (kind : FrameKind) (t : TokenView) : Option Indentation :=
  match t.next with
  | some next =>
    let (indent, s) :=
      if next.start.line = t.curr.start.line then ((next.start.column : Int), s)
      else s.expect s.lineIndent next
    some (s.push { kind, indent, lineIndent := some s.lineIndent })
  | none => none

/-- Enters an entry of a block sequence. A sequence at the column of its key has no start. -/
def openEntry (s : Indentation) (t : TokenView) : Option Indentation :=
  match t.next with
  | some next =>
    let column : Int := t.curr.start.column
    let s :=
      if (s.top?.map (·.kind)) = some .blockSequence then s
      else s.push { kind := .blockSequence, indent := column, implicit := true }
    let (indent, s) :=
      if next.start.line = t.curr.stop.line ∨ next.start.column = t.curr.start.column then
        ((next.start.column : Int), s)
      else s.expect column next
    some (s.push { kind := .blockEntry, indent })
  | none => none

/-- The column expected of a sequence below a key at `keyIndent`. -/
def sequenceIndent (s : Indentation) (keyIndent : Int) (next : Lexeme) : Int × Indentation :=
  let atKey : Bool := (next.start.column : Int) = keyIndent
  match s.sequences with
  | .notIndented => (keyIndent, s)
  | .indented =>
    if s.unit.isNone && atKey then (-1, s) else s.expect keyIndent next
  | .whatever => if atKey then (keyIndent, s) else s.expect keyIndent next
  | .consistent =>
    if atKey then (keyIndent, { s with sequences := .notIndented })
    else { s with sequences := .indented }.expect keyIndent next

/-- The token that a value starts with: after an anchor or tag on the line of its key, the token
on a later line. -/
def valueStart (t : TokenView) (prev : Lexeme) : Option Lexeme :=
  match t.next, t.nextNext with
  | some n, some nn =>
    if isDecoration n.kind ∧ n.start.line = prev.start.line ∧ n.start.line < nn.start.line then
      some nn
    else some n
  | n, _ => n

def endsKey : TokenKind → Bool
  | .blockEnd | .flowMappingEnd | .flowSequenceEnd | .key => true
  | _ => false

def openValue (s : Indentation) (t : TokenView) : Option Indentation :=
  match s.top?, t.prev with
  | some top, some prev =>
    if top.kind ≠ .key then none
    else
      match valueStart t prev with
      | none => some s
      | some next =>
        if endsKey next.kind then some s
        else
          let (indent, s) :=
            if top.explicitKey then s.expect top.indent next
            else if next.start.line = prev.start.line then ((next.start.column : Int), s)
            else if next.kind = .blockSequenceStart ∨ next.kind = .blockEntry then
              s.sequenceIndent top.indent next
            else s.expect top.indent next
          some (s.push { kind := .value, indent })
  | _, _ => none

/-- Pushes the frames that a token opens. -/
def enter (s : Indentation) (t : TokenView) : Option Indentation :=
  match t.curr.kind with
  | .blockMappingStart => s.openBlock .blockMapping .key t
  | .blockSequenceStart => s.openBlock .blockSequence .blockEntry t
  | .flowMappingStart => s.openFlow .flowMapping t
  | .flowSequenceStart => s.openFlow .flowSequence t
  | .blockEntry =>
    if t.nextKind = some .blockEntry ∨ t.nextKind = some .blockEnd then some s else s.openEntry t
  | .key =>
    s.top?.map fun top =>
      s.push { kind := .key, indent := top.indent, explicitKey := hasQuestionMark t.curr }
  | .value => s.openValue t
  | _ => some s

/-- Pops the frames that a token closes, and tells whether the rest is as it should be. `consumed`
tells whether the token has closed its own collection; `skip` asks for one more frame to go. -/
def closeFrames (t : TokenView) (consumed skip : Bool) : List Frame → List Frame × Bool
  | [] => ([], false)
  | top :: below =>
    let kind := t.curr.kind
    let stay : List Frame × Bool := (top :: below, true)
    let close (closes : Bool) : List Frame × Bool :=
      if closes && !consumed then closeFrames t true false below else stay
    let beforeEntry : Bool := t.nextKind == some .blockEntry
    if skip then closeFrames t consumed false below
    else
      match top.kind with
      | .root => stay
      | .flowSequence => close (kind == .flowSequenceEnd)
      | .flowMapping => close (kind == .flowMappingEnd)
      | .blockMapping | .blockSequence => close (kind == .blockEnd && !top.implicit)
      | .blockEntry =>
        let inImplicit : Bool := below.head?.any (·.implicit)
        if kind != .blockEntry && below.isEmpty then (top :: below, false)
        else if kind != .blockEntry && inImplicit && !isDecoration kind && !beforeEntry then
          closeFrames t consumed true below
        else if beforeEntry || t.nextKind == some .blockEnd then closeFrames t consumed false below
        else stay
      | .value =>
        if kind == .value || isDecoration kind then stay
        else if below.head?.any (·.kind == .key) then closeFrames t consumed true below
        else (top :: below, false)
      | .key => if t.nextKind.any endsKey then closeFrames t consumed false below else stay

/-- The column expected of a token that starts its line. -/
def expectFirst (s : Indentation) (top : Frame) (l : Lexeme) : Int × Indentation :=
  if isFlowEnd l.kind then (top.lineIndent.getD top.indent, s)
  else if top.kind = .key ∧ top.explicitKey ∧ l.kind ≠ .value then s.expect top.indent l
  else (top.indent, s)

/-- What the check says of a token. One that does not fit the stack is `unexpected`. -/
inductive Verdict where
  | fits
  | misplaced (expected : Int) (found : Nat)
  | unexpected
deriving DecidableEq

def Verdict.message? : Verdict → Option String
  | fits => none
  | misplaced expected found =>
    if expected < 0 then
      some ("wrong indentation: expected at least " ++ toString (found + 1))
    else
      some ("wrong indentation: expected " ++ toString expected ++ " but found " ++ toString found)
  | unexpected => some "cannot infer indentation: unexpected token"

/-- Compares a token that starts its line with the column expected of it. -/
def place (s : Indentation) (top : Frame) (l : Lexeme) : Verdict × Indentation :=
  let column := l.start.column
  let visible := showsText l
  let first := visible && s.line < l.start.line
  let (expected, s) := if first then s.expectFirst top l else ((column : Int), s)
  let s :=
    if visible then
      { s with line := lastLine l, lineIndent := if first then column else s.lineIndent }
    else s
  (if expected = column then .fits else .misplaced expected column, s)

/-- Checks a token and brings the stack up to date. What an unexpected token has changed stays. -/
def check (s : Indentation) (t : TokenView) : Verdict × Indentation :=
  match s.top? with
  | none => (.unexpected, s)
  | some top =>
    let (verdict, s) := s.place top t.curr
    match s.enter t with
    | none => (.unexpected, s)
    | some s =>
      let (frames, fit) := closeFrames t false false s.frames
      (if fit then verdict else .unexpected, { s with frames })

end Indentation

end Blueprint
