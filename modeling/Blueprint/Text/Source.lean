import Blueprint.Text.Mark

/-!
A document as characters with tables of their positions and of the starts of lines. `Source.markAt`
gives the position of an index; `Source.lineStart` and `Source.lineEnd` bound a line.
-/

namespace Blueprint

/-- The characters of a document, the position of each and of the end, and the index at which each
line starts. -/
structure Source where
  chars : Array Char
  marks : Array Mark
  lineStarts : Array Nat

namespace Source

/-- The indexes just after the line feeds of a text that starts at `index`. -/
def startsAfter (index : Nat) : List Char → List Nat
  | [] => []
  | c :: r =>
    if c = '\n' then (index + 1) :: startsAfter (index + 1) r else startsAfter (index + 1) r

/-- The positions in a text that starts at `m`, its end with them. -/
def marksFrom (m : Mark) : List Char → List Mark
  | [] => [m]
  | c :: r => m :: marksFrom (m.past c) r

def ofList (chars : List Char) : Source where
  chars := chars.toArray
  marks := (marksFrom ⟨0, 1, 0⟩ chars).toArray
  lineStarts := (0 :: startsAfter 0 chars).toArray

def ofText (text : String) : Source :=
  ofList text.toList

def size (s : Source) : Nat :=
  s.chars.size

def isEmpty (s : Source) : Bool :=
  s.size = 0

def char? (s : Source) (index : Nat) : Option Char :=
  s.chars[index]?

/-- The characters from `start` to just before `stop`, within the document. -/
def slice (s : Source) (start stop : Nat) : List Char :=
  (s.chars.extract start stop).toList

/-- The position of an index, or of the end of the document for a greater one. -/
def markAt (s : Source) (index : Nat) : Mark :=
  s.marks.getD (min index s.size) ⟨0, 1, 0⟩

/-- The index at which a line starts, counting lines from 1. -/
def lineStart (s : Source) (line : Nat) : Nat :=
  s.lineStarts[line - 1]?.getD s.size

/-- The index just past a line, before its `\n` or `\r\n`. -/
def lineEnd (s : Source) (line : Nat) : Nat :=
  let stop :=
    match s.lineStarts[line]? with
    | some next => next - 1
    | none => s.size
  if 0 < stop ∧ s.char? (stop - 1) = some '\r' then stop - 1 else stop

end Source

end Blueprint
