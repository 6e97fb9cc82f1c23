import Blueprint.Text.Mark

/-!
The two dialects of YAML: documents are read leniently, settings strictly. This module holds their
character classes and the way in which characters move a position.
-/

namespace Blueprint.Yaml

inductive Dialect where
  | document
  | settings
deriving DecidableEq

/-- The end of the text, or a NUL character, which ends a document too. -/
def isEnd (c : Char) : Bool :=
  c == '\x00'

/-- A space or a tab. -/
def isSpace (c : Char) : Bool :=
  c == ' ' || c == '\t'

/-- The characters of names of anchors, tag handles and directives. -/
def isNameChar (c : Char) : Bool :=
  c.isAlphanum || c == '_' || c == '-'

/-- The indicators of flow collections. -/
def isFlowIndicator (c : Char) : Bool :=
  c == ',' || c == '[' || c == ']' || c == '{' || c == '}'

def isHex (c : Char) : Bool :=
  c.isDigit || ('a' ≤ c && c ≤ 'f') || ('A' ≤ c && c ≤ 'F')

namespace Dialect

def strict (d : Dialect) : Bool :=
  d == .settings

/-- In settings NEL, LS and PS end a line as well. -/
def isBreak (d : Dialect) (c : Char) : Bool :=
  c == '\n' || c == '\r' || (d.strict && (c == '\u0085' || c == '\u2028' || c == '\u2029'))

def isBreakOrEnd (d : Dialect) (c : Char) : Bool :=
  d.isBreak c || isEnd c

/-- White space of YAML, a line break or the end. -/
def isGap (d : Dialect) (c : Char) : Bool :=
  isSpace c || d.isBreakOrEnd c

/-- The character that a line break stands for. -/
def breakText (c : Char) : Char :=
  if c == '\u2028' || c == '\u2029' then c else '\n'

/-- What a character adds to an index: documents count characters, settings count octets. -/
def width (d : Dialect) (c : Char) : Nat :=
  if d.strict then c.utf8Size else 1

/-- The position after `c`, which stands at `m` before `rest`. In documents a line feed alone
starts a line; in settings every line break does. -/
def past (d : Dialect) (c : Char) (rest : List Char) (m : Mark) : Mark :=
  let index := m.index + d.width c
  if c == '\n' then ⟨index, m.line + 1, 0⟩
  else if d.strict && d.isBreak c then
    if c == '\r' && rest.head? == some '\n' then ⟨index, m.line, 0⟩
    else ⟨index, m.line + 1, 0⟩
  else ⟨index, m.line, m.column + 1⟩

end Dialect

end Blueprint.Yaml
