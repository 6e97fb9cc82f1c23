import Blueprint.Lint.Rule

/-!
Values and comments: values that are left out, spellings of booleans, repeated keys, and the space
around comments.
-/

namespace Blueprint.Rules

/-- What is said of a value that `next` shows to be missing. -/
def missingValue? (c : RuleSettings) (next : Yaml.TokenKind) : Option String :=
  match next with
  | .key | .blockEnd =>
    if c.bool "forbid-in-block-mappings" then some "empty value in block mapping" else none
  | .flowEntry | .flowMappingEnd =>
    if c.bool "forbid-in-flow-mappings" then some "empty value in flow mapping" else none
  | _ => none

def checkEmptyValue (c : RuleSettings) (t : TokenView) : List Problem :=
  if t.curr.kind = .value then
    ((t.nextKind.bind (missingValue? c)).map fun message =>
      { line := t.curr.start.line, column := some (t.curr.stop.column + 1),
        rule := "empty-values", message : Problem }).toList
  else []

def emptyValues : Rule where
  name := "empty-values"
  description := "Forbids implicit null values in mappings"
  options := [⟨"forbid-in-block-mappings", .bool false⟩, ⟨"forbid-in-flow-mappings", .bool true⟩]
  check := .eachToken checkEmptyValue

/-- The words that are read as booleans in some version of YAML. -/
def truthWords : List String :=
  ["YES", "Yes", "yes", "NO", "No", "no", "TRUE", "True", "true", "FALSE", "False", "false", "ON",
   "On", "on", "OFF", "Off", "off"]

def isTag : Yaml.TokenKind → Bool
  | .tag _ => true
  | _ => false

def isTruthWord (c : RuleSettings) (t : TokenView) : Bool :=
  match t.curr.kind with
  | .scalar text .plain =>
    !t.prevKind.any isTag
      && (c.bool "check-keys" || t.prevKind != some .key)
      && truthWords.contains text
      && !(c.list "allowed-values").contains text
  | _ => false

def checkTruth (c : RuleSettings) (t : TokenView) : List Problem :=
  if isTruthWord c t then
    let allowed := sortBy (fun (a b : String) => a < b) (c.list "allowed-values")
    [{ line := t.curr.start.line, column := some (t.curr.start.column + 1), rule := "truthy",
       message := "truthy value should be one of [" ++ ", ".intercalate allowed ++ "]",
       fixable := true }]
  else []

def truthy : Rule where
  name := "truthy"
  description := "Forbids non-canonical boolean values"
  options := [⟨"allowed-values", .list ["true", "false"]⟩, ⟨"check-keys", .bool true⟩]
  level := .warning
  repairs := true
  check := .eachToken checkTruth

/-- The key of merged mappings may repeat. -/
def mergeKey : String := "<<"

/-- The keys that an earlier entry has too; `seen` holds the texts of the keys before. -/
def repeatedKeys (seen : List String) : List (Node × Node) → List (String × Mark)
  | [] => []
  | (k, _) :: r =>
    match k.text? with
    | none => repeatedKeys seen r
    | some text =>
      if text ≠ mergeKey ∧ text ∈ seen then (text, k.start) :: repeatedKeys seen r
      else repeatedKeys (text :: seen) r

def checkKeys (_ : Session) (v : NodeVisit) : List Problem :=
  (repeatedKeys [] v.node.entries).map fun (text, m) =>
    { line := m.line, column := some (m.column + 1), rule := "key-duplicates",
      message := "duplication of key \"" ++ text ++ "\" in mapping" }

def keyDuplicates : Rule where
  name := "key-duplicates"
  description := "Forbids duplicated keys in mappings"
  check := .eachNode checkKeys

/-- Whether the text after the signs of a comment is that of an interpreter line. -/
def isShebang (body : List Char) : Bool :=
  match body with
  | '!' :: c :: _ => !Text.isBlank c
  | _ => false

def checkDistance (c : RuleSettings) (x : Comment) : List Problem :=
  let min := c.int "min-spaces-from-content"
  if min ≠ -1 ∧ x.inline ∧ ((x.index - x.precedingStop.index : Nat) : Int) < min then
    [{ line := x.line, column := some x.column, rule := "comments",
       message := "too few spaces before comment" }]
  else []

def checkStart (c : RuleSettings) (x : Comment) : List Problem :=
  let body := x.text.dropWhile (· == '#')
  let signs := x.text.length - body.length
  let shebang := c.bool "ignore-shebangs" && x.line == 1 && x.column == 1 && isShebang body
  let spaced := body.isEmpty || body.head? == some ' '
  if c.bool "require-starting-space" && !shebang && !spaced then
    [{ line := x.line, column := some (x.column + signs), rule := "comments",
       message := "missing starting space in comment" }]
  else []

def comments : Rule where
  name := "comments"
  description := "Checks comment spacing"
  options :=
    [⟨"require-starting-space", .bool true⟩, ⟨"ignore-shebangs", .bool true⟩,
     ⟨"min-spaces-from-content", .int 1⟩]
  level := .warning
  check := .eachComment fun c x => checkDistance c x ++ checkStart c x

end Blueprint.Rules
