import Blueprint.Text.Blank
import Blueprint.Text.Source
import Blueprint.Yaml.Scanner

/-!
Tokens with the range of text that they cover. A scanner knows where a token starts; where it stops
follows from the document and the start of the next token.
-/

namespace Blueprint

open Yaml (TokenKind ScalarStyle)

/-- A token and its range: `stop` is just past its last character. -/
structure Lexeme where
  kind : TokenKind
  start : Mark
  stop : Mark
deriving DecidableEq

/-- The collections that a token can stand in. -/
inductive Container where
  | blockMapping
  | blockSequence
  | flowMapping
  | flowSequence
deriving DecidableEq

namespace Container

def isFlow : Container → Bool
  | flowMapping | flowSequence => true
  | blockMapping | blockSequence => false

end Container

namespace Lexeme

/-- The text of a scalar. -/
def scalar? (l : Lexeme) : Option String :=
  match l.kind with
  | .scalar text _ => some text
  | _ => none

def isScalar (l : Lexeme) : Bool :=
  l.scalar?.isSome

/-- The collection that the token opens. -/
def opens? (l : Lexeme) : Option Container :=
  match l.kind with
  | .blockMappingStart => some .blockMapping
  | .blockSequenceStart => some .blockSequence
  | .flowMappingStart => some .flowMapping
  | .flowSequenceStart => some .flowSequence
  | _ => none

def closes (l : Lexeme) : Bool :=
  match l.kind with
  | .blockEnd | .flowMappingEnd | .flowSequenceEnd => true
  | _ => false

/-- The index after the characters that satisfy `p`, from `index` on and before `limit`. -/
def runEnd (source : Source) (p : Char → Bool) (index limit : Nat) : Nat :=
  index + ((source.slice index limit).takeWhile p).length

/-- How many characters precede a comment, a `#` after white space; the first character is none. -/
def beforeComment : List Char → Nat
  | [] => 0
  | [_] => 1
  | c :: d :: r => if d = '#' ∧ Text.isBlank c then 1 else beforeComment (d :: r) + 1

/-- A plain scalar reaches to the next token, without a comment and white space before that. -/
def plainStop (source : Source) (start limit : Nat) : Nat :=
  let chars := source.slice start limit
  start + max (Text.trimEnd (chars.take (beforeComment chars))).length 1

/-- The index just past the closing quote, for the text that stands at `index`. -/
def singleQuotedStop : Nat → List Char → Nat
  | index, [] => index
  | index, '\'' :: '\'' :: r => singleQuotedStop (index + 2) r
  | index, c :: r => if c = '\'' then index + 1 else singleQuotedStop (index + 1) r

/-- Like `singleQuotedStop`; a backslash takes the next character with it. -/
def doubleQuotedStop : Nat → List Char → Nat
  | index, [] => index
  | index, ['\\'] => index + 1
  | index, '\\' :: _ :: r => doubleQuotedStop (index + 2) r
  | index, c :: r => if c = '"' then index + 1 else doubleQuotedStop (index + 1) r

def opensBlockText (c : Option Char) : Bool :=
  c == some '|' || c == some '>'

def inWord (c : Char) : Bool :=
  !Text.isBlank c

/-- A block scalar reaches to the line of the next token; one without content is its header. -/
def blockStop (source : Source) (start : Mark) (limit : Nat) : Nat :=
  let limitLine := (source.markAt limit).line
  if limitLine = start.line ∧ opensBlockText (source.char? start.index) then
    runEnd source inWord (start.index + 1) limit
  else max (source.lineStart limitLine) (start.index + 1)

/-- The index at which a token stops when the next one starts at `limit`. -/
def stopIndex (source : Source) (l : Lexeme) (limit : Nat) : Nat :=
  let start := l.start.index
  match l.kind with
  | .scalar _ .plain => plainStop source start limit
  | .scalar _ .singleQuoted => singleQuotedStop (start + 1) (source.slice (start + 1) source.size)
  | .scalar _ .doubleQuoted => doubleQuotedStop (start + 1) (source.slice (start + 1) source.size)
  | .scalar _ _ => blockStop source l.start limit
  | .alias _ | .anchor _ | .tag _ =>
    runEnd source (fun c => inWord c && !Yaml.isFlowIndicator c) (start + 1) limit
  | .versionDirective .. | .tagDirective .. => source.lineEnd l.start.line
  | .documentStart | .documentEnd => start + 3
  | .flowSequenceStart | .flowSequenceEnd | .flowMappingStart | .flowMappingEnd
  | .blockEntry | .flowEntry | .value => start + 1
  | .key => if source.char? start = some '?' then start + 1 else start
  | .blockMappingStart | .blockSequenceStart | .blockEnd | .streamStart | .streamEnd => start

def finish (source : Source) (l : Lexeme) (limit : Nat) : Lexeme :=
  let start := l.start.index
  let stop := max start (min (stopIndex source l limit) (max source.size start))
  { l with stop := source.markAt stop }

/-- A block scalar without content is placed at its indicator, after the token before it. -/
def atIndicator (source : Source) (l : Lexeme) (after : Nat) : Lexeme :=
  let first := max after (source.lineStart l.start.line)
  let before := (source.slice first l.start.index).takeWhile fun c => !opensBlockText (some c)
  if first + before.length < l.start.index then
    let m := source.markAt (first + before.length)
    { l with start := m, stop := m }
  else l

/-- A block mapping without a token of its own starts at its first key. -/
def anchored (l : Lexeme) (next : Yaml.Token) : Lexeme :=
  if l.kind = .blockMappingStart ∧ next.kind = .key then { l with start := next.mark } else l

def begin (source : Source) (t : Yaml.Token) (after : Nat) : Lexeme :=
  let l : Lexeme := ⟨t.kind, t.mark, t.mark⟩
  match t.kind with
  | .scalar _ .literal | .scalar _ .folded => l.atIndicator source after
  | _ => l

end Lexeme

end Blueprint
