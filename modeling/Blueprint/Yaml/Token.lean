import Blueprint.Text.Mark

/-!
The lexical tokens of YAML.
-/

namespace Blueprint.Yaml

/-- The way in which a scalar is written. -/
inductive ScalarStyle where
  | plain
  | singleQuoted
  | doubleQuoted
  | literal
  | folded
deriving DecidableEq

/-- The text of a URI without its escapes; `broken` tells that it has escaped octets that form no
character. -/
structure Uri where
  text : String
  broken : Bool := false
deriving DecidableEq

namespace Uri

/-- A URI from its characters; octets that form none are missing. -/
def ofPieces (pieces : List (Option Char)) : Uri where
  text := String.ofList (pieces.map (·.getD '\ufffd'))
  broken := pieces.any (·.isNone)

def append (a b : Uri) : Uri :=
  ⟨a.text ++ b.text, a.broken || b.broken⟩

instance : Append Uri := ⟨append⟩

end Uri

/-- A tag as written: a handle such as `!!` and what follows it. -/
structure Tag where
  handle : String
  suffix : Uri
deriving DecidableEq

inductive TokenKind where
  | streamStart
  | streamEnd
  | versionDirective (major minor : Nat)
  | tagDirective (handle : String) (start : Uri)
  | documentStart
  | documentEnd
  | blockSequenceStart
  | blockMappingStart
  | blockEnd
  | flowSequenceStart
  | flowSequenceEnd
  | flowMappingStart
  | flowMappingEnd
  | blockEntry
  | flowEntry
  | key
  | value
  | alias (name : String)
  | anchor (name : String)
  | tag (t : Tag)
  | scalar (text : String) (style : ScalarStyle)
deriving DecidableEq

/-- A token and where it starts. -/
structure Token where
  kind : TokenKind
  mark : Mark
deriving DecidableEq

end Blueprint.Yaml
