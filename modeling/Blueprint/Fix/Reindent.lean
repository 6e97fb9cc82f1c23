import Blueprint.Fix.Lines
import Blueprint.Setting.Write

/-!
Repairing indentation. The lines of a document are paired with those of its canonical text; where
every pair says the same, the canonical indentation is taken over.
-/

namespace Blueprint

/-- What a line says, without indentation, quotes and comment. -/
structure LineSense where
  /-- The number of hyphens it starts with. -/
  hyphens : Nat
  /-- The key with its colon, or the scalar in lower case. -/
  rest : List Char
deriving DecidableEq

namespace LineSense

/-- The text before the first place outside quotes at which `p` holds of the previous character and
of what follows. -/
def beforeUnquoted? (p : Option Char → List Char → Bool) (quote prev : Option Char) :
    List Char → Option (List Char)
  | [] => none
  | c :: r =>
    let later (quote : Option Char) : Option (List Char) :=
      (beforeUnquoted? p quote (some c) r).map (c :: ·)
    match quote with
    | some q => later (if c = q then none else some q)
    | none =>
      if c = '\'' ∨ c = '"' then later (some c)
      else if p prev (c :: r) then some []
      else later none

def isSpace (c : Char) : Bool :=
  c == ' ' || c == '\t'

def withoutComment (s : List Char) : List Char :=
  let startsComment (prev : Option Char) (rest : List Char) : Bool :=
    rest.head? == some '#' && prev.all isSpace
  match beforeUnquoted? startsComment none none s with
  | some before => Text.trimEnd before
  | none => s

/-- The text inside a pair of quotes. -/
def unquoted (s : List Char) : List Char :=
  let inside? (q : Char) : Option (List Char) :=
    match s with
    | c :: r => if c = q ∧ r.getLast? = some q then some r.dropLast else none
    | [] => none
  ((inside? '\'').or (inside? '"')).getD s

/-- The number of hyphens at the start of a text, and what follows them. -/
def takeHyphens : List Char → Nat × List Char
  | [] => (0, [])
  | ['-'] => (1, [])
  | '-' :: ' ' :: r => let (n, rest) := takeHyphens r; (n + 1, rest)
  | c :: r => if Text.isBlank c then takeHyphens r else (0, c :: r)

def restOf (s : List Char) : List Char :=
  let endsKey (_ : Option Char) (rest : List Char) : Bool :=
    match rest with
    | ':' :: r => r.head?.all isSpace
    | _ => false
  match beforeUnquoted? endsKey none none s with
  | some key => unquoted (Text.trimEnd key) ++ [':']
  | none =>
    let scalar := unquoted s
    if scalar = "null".toList ∨ scalar = ['~'] then [] else Text.lowercase scalar

def ofLine (line : List Char) : LineSense :=
  let (n, rest) := takeHyphens (withoutComment (Text.trim line))
  ⟨n, restOf rest⟩

/-- The sense of a line as one text. -/
def text (l : LineSense) : List Char :=
  (List.replicate l.hyphens ['-', ' ']).flatten ++ l.rest

end LineSense

namespace FileLines

/-- Whether a line says anything: it is no comment and does not start or end a document. -/
def hasContent (line : List Char) : Bool :=
  let s := Text.trim line
  !(s.isEmpty || s.head? == some '#' || s == "---".toList || s == "...".toList)

/-- The indentation of a canonical line, if it says the same as a line. -/
def pairIndent? (line canonical : List Char) : Option Nat :=
  if (LineSense.ofLine line).text = (LineSense.ofLine canonical).text then
    some (leadingSpaces canonical)
  else none

/-- The indentations for those of the lines that have content. -/
def pairIndents? : List (List Char) → List (List Char) → Option (List Nat)
  | [], [] => some []
  | line :: r, canonical :: s => do
    let indent ← pairIndent? line canonical
    return indent :: (← pairIndents? r s)
  | _, _ => none

def canonicalLines? (lines : FileLines) : Option (List (List Char)) :=
  (Setting.ofText? (String.ofList lines.flatten)).map Setting.lines

/-- The indentation of each line with content, unless the document differs from its canonical
text in more than that. -/
def expectedIndents? (lines : FileLines) : Option (List Nat) :=
  (canonicalLines? lines).bind fun canonical =>
    pairIndents? ((lines.map content).filter hasContent) (canonical.filter hasContent)

def indented (indent : Nat) (line : List Char) : List Char :=
  if leadingSpaces (content line) = indent then line
  else List.replicate indent ' ' ++ Text.trimStart (content line) ++ terminator line

/-- Gives the lines with content their indentations, from `skip` lines on. -/
def indentFrom : Nat → List Nat → FileLines → FileLines
  | _, _, [] => []
  | skip, indents, line :: r =>
    if hasContent (content line) then
      (if skip = 0 then indented (indents.headD 0) line else line)
        :: indentFrom (skip - 1) indents.tail r
    else line :: indentFrom (skip - 1) indents r

/-- Repairs the indentation from a line on; `none` where it cannot be derived. -/
def reindent? (lines : FileLines) (index : Nat) : Option Change :=
  (expectedIndents? lines).map fun indents =>
    let new := indentFrom index indents lines
    if new = lines then none else some (new, 0)

end FileLines

end Blueprint
