import Blueprint.Fix.Content
import Blueprint.Number.Integer
import Blueprint.Text.Digit

/-!
Repairs of a file as a list of lines with their terminators. A repair at a line tells by how much
the number of lines has changed, or that there is nothing to do.
-/

namespace Blueprint

/-- The lines of a file, each with its terminator. -/
abbrev FileLines := List (List Char)

namespace FileLines

/-- Splits after every line feed; a text that ends with one has no further line. -/
def ofChars (s : List Char) : FileLines :=
  s.foldr
    (fun c lines =>
      if c = '\n' then [c] :: lines
      else
        match lines with
        | [] => [[c]]
        | line :: r => (c :: line) :: r)
    []

def isTerminator (c : Char) : Bool :=
  c == '\n' || c == '\r'

/-- The content of a line, without its terminator. -/
def content (line : List Char) : List Char :=
  Text.dropEndWhile isTerminator line

def terminator (line : List Char) : List Char :=
  line.drop (content line).length

def leadingSpaces (line : List Char) : Nat :=
  (line.takeWhile (· == ' ')).length

/-- What a repair leaves and by how much the number of lines has changed. -/
abbrev Change := Option (FileLines × Int)

/-- Changes the content of a line and keeps its terminator. -/
def mapContent (f : List Char → List Char) (lines : FileLines) (index : Nat) : Change :=
  lines[index]?.bind fun line =>
    let new := f (content line)
    if new = content line then none else some (lines.set index (new ++ terminator line), 0)

/-- Ends a line with a line feed alone. -/
def endWithFeed (lines : FileLines) (index : Nat) : Change :=
  lines[index]?.bind fun line =>
    match line.reverse with
    | '\n' :: '\r' :: r => some (lines.set index (r.reverse ++ ['\n']), 0)
    | _ => none

/-- The numbers in `(3 > 1)`, for a text that starts with it. -/
def excessHere? (s : List Char) : Option (List Char × List Char) :=
  let digits (s : List Char) : List Char × List Char :=
    (s.takeWhile Text.isAnyDigit, s.dropWhile Text.isAnyDigit)
  match s with
  | '(' :: r =>
    let (found, rest) := digits r
    match Text.after? " > ".toList rest with
    | some rest =>
      let (allowed, rest) := digits rest
      if found.isEmpty || allowed.isEmpty || rest.head? != some ')' then none
      else some (found, allowed)
    | none => none
  | _ => none

/-- The first pair of numbers `(3 > 1)` in a message. -/
def excess? : List Char → Option (List Char × List Char)
  | [] => none
  | c :: r => (excessHere? (c :: r)).or (excess? r)

/-- How many blank lines a message finds too many. -/
def excessOf? (message : String) : Option Nat := do
  let (found, allowed) ← excess? message.toList
  return (← Number.natural64? found) - (← Number.natural64? allowed)

def isBlankLine (line : List Char) : Bool :=
  (content line).isEmpty

/-- Removes the blank lines that end at a line, but no more than a message finds too many. -/
def removeBlank (message : String) (lines : FileLines) (index : Nat) : Change :=
  (excessOf? message).bind fun excess =>
    let run := ((lines.take (index + 1)).reverse.takeWhile isBlankLine).length
    let count := min run excess
    if count = 0 then none
    else some (lines.take (index + 1 - count) ++ lines.drop (index + 1), -(count : Int))

def replace (old new : String) : FileLines → Nat → Change :=
  mapContent (Text.replaceAll old.toList new.toList)

def startsWith (start line : List Char) : Bool :=
  (Text.after? start line).isSome

/-- The lines of the block below a key, blank ones left out. -/
def blockBelow (keyIndent : Nat) (lines : FileLines) : List (List Char) :=
  let inBlock (line : List Char) : Bool := line.all Text.isBlank || keyIndent < leadingSpaces line
  ((lines.map content).takeWhile inBlock).filter fun line => !line.all Text.isBlank

/-- Adds a label to the block of an input whose key stands alone on its line. -/
def insertLabel (name : String) (lines : FileLines) (index : Nat) : Change :=
  lines[index]?.bind fun line =>
    let key := Text.trim (content line)
    if !startsWith name.toList key || key.getLast? != some ':' then none
    else
      let keyIndent := leadingSpaces (content line)
      let block := blockBelow keyIndent (lines.drop (index + 1))
      if block.any fun l => startsWith "display_label:".toList (Text.trimStart l) then none
      else
        let indent :=
          match block with
          | first :: _ => leadingSpaces first
          | [] => max (keyIndent * 2) (keyIndent + 2)
        let ending := if (terminator line).isEmpty then ['\n'] else terminator line
        let label :=
          List.replicate indent ' ' ++ "display_label: ".toList ++ Content.labelOf key ++ ending
        some (lines.take (index + 1) ++ label :: lines.drop (index + 1), 1)

end FileLines

end Blueprint
