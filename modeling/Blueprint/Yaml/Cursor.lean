import Blueprint.Yaml.Dialect
import Blueprint.Yaml.Fault

/-!
A place in a text: what is left to read and the position reached.
-/

namespace Blueprint.Yaml

structure Cursor where
  rest : List Char
  mark : Mark

def fail {α : Type} (fault : Fault) (mark : Mark) : Except ScanError α :=
  .error ⟨fault, mark⟩

namespace Cursor

def ofList (text : List Char) : Cursor :=
  ⟨text, ⟨0, 1, 0⟩⟩

def first (c : Cursor) : Char :=
  c.rest.headD '\x00'

/-- The character `n` places ahead, NUL after the end. -/
def ahead (c : Cursor) (n : Nat) : Char :=
  c.rest.getD n '\x00'

def advance (d : Dialect) (c : Cursor) : Cursor :=
  match c.rest with
  | [] => ⟨[], d.past '\x00' [] c.mark⟩
  | x :: r => ⟨r, d.past x r c.mark⟩

def skip (d : Dialect) : Nat → Cursor → Cursor
  | 0, c => c
  | n + 1, c => skip d n (c.advance d)

/-- The characters up to the first one outside `p`, and the place after them. -/
def takeFrom (d : Dialect) (p : Char → Bool) : List Char → Mark → List Char × Cursor
  | [], m => ([], ⟨[], m⟩)
  | x :: r, m =>
    if p x then
      let (taken, stop) := takeFrom d p r (d.past x r m)
      (x :: taken, stop)
    else ([], ⟨x :: r, m⟩)

def takeWhile (d : Dialect) (p : Char → Bool) (c : Cursor) : List Char × Cursor :=
  takeFrom d p c.rest c.mark

def skipWhile (d : Dialect) (p : Char → Bool) (c : Cursor) : Cursor :=
  (c.takeWhile d p).2

/-- Passes over a line break, if there is one. -/
def skipBreak (d : Dialect) (c : Cursor) : Cursor :=
  if c.first == '\r' && c.ahead 1 == '\n' then c.skip d 2
  else if d.isBreak c.first then c.advance d
  else c

/-- Passes over a comment, if there is one. -/
def skipComment (d : Dialect) (c : Cursor) : Cursor :=
  if c.first == '#' then c.skipWhile d (fun x => !d.isBreakOrEnd x) else c

/-- Whether a line starts here with `---` or `...` and white space after it. -/
def atIndicator (d : Dialect) (c : Cursor) : Bool :=
  c.mark.column == 0 && d.isGap (c.ahead 3)
    && ((c.first == '-' && c.ahead 1 == '-' && c.ahead 2 == '-')
      || (c.first == '.' && c.ahead 1 == '.' && c.ahead 2 == '.'))

end Cursor

end Blueprint.Yaml
