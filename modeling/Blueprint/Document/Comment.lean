import Blueprint.Document.Lexeme
import Blueprint.Text.Cut

/-!
Comments, which a scanner passes over: they are found in the text between two tokens.
-/

namespace Blueprint

structure Comment where
  line : Nat
  /-- The column of the `#`, from 1. -/
  column : Nat
  /-- The index of the `#`. -/
  index : Nat
  /-- The text from the `#` to the end of the line. -/
  text : List Char
  /-- Whether content precedes the comment on its line. -/
  inline : Bool
  /-- Where the token before the comment stops. -/
  precedingStop : Mark
deriving DecidableEq

namespace Comment

def create (source : Source) (before : Lexeme) (index line column : Nat) : Comment :=
  let endsLine := 0 < before.stop.index ∧ source.char? (before.stop.index - 1) = some '\n'
  { line, column, index
    text := source.slice index (source.lineEnd line)
    inline := before.kind ≠ .streamStart ∧ line = before.stop.line ∧ ¬endsLine
    precedingStop := before.stop }

/-- At most one comment for each piece of a line; the first piece starts at the given position. -/
def inPieces (source : Source) (before : Lexeme) (index line column : Nat) :
    List (List Char) → List Comment
  | [] => []
  | piece :: r =>
    let place := piece.idxOf '#'
    let later := inPieces source before (index + piece.length + 1) (line + 1) 1 r
    if place < piece.length then
      create source before (index + place) line (column + place) :: later
    else later

/-- Whether no comment fits between a token and the one after it, as both stand on one line. -/
def shareLine (before : Lexeme) : Option Lexeme → Bool
  | some l =>
    before.stop.line = l.start.line ∧ before.kind ≠ .streamStart ∧ l.kind ≠ .streamEnd
  | none => false

/-- The comments between a token and the one after it. -/
def between (source : Source) (before : Lexeme) (next : Option Lexeme) : List Comment :=
  if shareLine before next then []
  else
    let limit := (next.map (·.start.index)).getD source.size
    inPieces source before before.stop.index before.stop.line (before.stop.column + 1)
      (Text.pieces '\n' (source.slice before.stop.index limit))

end Comment

end Blueprint
