import Blueprint.Lint.Rule
import Blueprint.Lint.Vocabulary

/-!
Sections that declare names: outputs and capabilities, reusable definitions, labels.
-/

namespace Blueprint.Rules

/-- Whether a mapping has something other than null under a key. -/
def gives (body : Node) (key : String) : Bool :=
  (body.get? key).any (!·.value.isNull)

/-- An output or capability with one of a value and a description needs the other one too. -/
def checkProvided (designation name : String) (line : Nat) (body : Node) : List Problem :=
  let lacks (key : String) : Bool := !gives body key
  if lacks "value" && lacks "description" then []
  else
    (["value", "description"].filter lacks).map fun key =>
      .onLine "capabilities" line
        (designation ++ " " ++ name ++ " does not provide a " ++ key ++ ".")

def linesOf (declared : List (String × Node × Node)) : List (String × Nat) :=
  declared.map fun (name, key, _) => (name, key.line)

def checkCapabilities (_ : RuleSettings) (v : NodeVisit) (s : Session) : Findings :=
  if !v.isSection ["outputs", "capabilities"] then ([], s)
  else
    let declared := v.node.namedEntries
    let check (designation : String) : List Problem :=
      declared.flatMap fun (name, key, body) => checkProvided designation name key.line body
    let c := s.context
    if v.key? = some "outputs" then
      (check "output",
        s.withContext { c with outputs := Context.insertAll c.outputs (linesOf declared) })
    else
      (check "capability",
        s.withContext
          { c with capabilities := Context.insertAll c.capabilities (linesOf declared) })

def capabilities : Rule where
  name := "capabilities"
  description := "Checks blueprint outputs and capabilities"
  check := .nodes checkCapabilities

def definitionProblem (line : Nat) (message : String) : Problem :=
  .onLine "dsl_definitions" line message

def checkDefinition (key body : Node) : List Problem :=
  let name := key.keyName
  let named := key.text?.isSome && !name.toList.head?.any Char.isDigit
  (if named then []
    else
      [definitionProblem key.line
        ("dsl definition should be a string and should not start with a numeric character: "
          ++ name)]) ++
  (if body.isMapping then []
    else
      [definitionProblem key.line
        ("dsl definition " ++ name ++ " content must be a dict: "
          ++ Vocabulary.kindName body.value)])

def checkDefinitions (_ : Session) (v : NodeVisit) : List Problem :=
  if v.isSection ["dsl_definitions"] then
    v.node.entries.flatMap fun (key, body) => checkDefinition key body
  else []

def definitions : Rule where
  name := "dsl_definitions"
  description := "Checks dsl_definitions entries"
  check := .eachNode checkDefinitions

def labelProblem (line : Nat) (message : String) : Problem :=
  .onLine "labels" line message

/-- A spelling that is understood, and reported. -/
def dashedLabels : String := "blueprint-labels"

def checkHiddenLabel (line : Nat) (values : List String) : List Problem :=
  if values = ["true"] then []
  else
    [labelProblem line
      ("The \"hidden\" label with the values [" ++ ", ".intercalate values
        ++ "] is functionally the same as removing the \"hidden\" label. "
        ++ "For conciseness, remove the \"hidden\" label.")]

def checkLabelValues (hides : Bool) (name : String) (line : Nat) (values : Node) : List Problem :=
  match values.items? with
  | none => [labelProblem values.line "The value of \"values\" should be a list"]
  | some items =>
    match items.mapM Node.text? with
    | none => [labelProblem values.line ("label " ++ name ++ " values should be strings")]
    | some texts => if hides && name == "hidden" then checkHiddenLabel line texts else []

/-- `hides` tells whether a label named `hidden` has its special meaning. -/
def checkLabelBody (hides : Bool) (name : String) (line : Nat) (body : Node) : List Problem :=
  match body.entries with
  | [] =>
    [labelProblem line ("label " ++ name ++ " must be a dictionary with a \"values\" key")]
  | (key, values) :: _ =>
    (if key.isText "values" then []
      else [labelProblem key.line "The name of the key should be \"values\""])
      ++ checkLabelValues hides name line values

def checkLabelSection (hides : Bool) (n : Node) : List Problem :=
  if n.isMapping then
    n.namedEntries.flatMap fun (name, key, body) =>
      checkLabelBody hides name key.line body
  else if n.isText "" then []
  else [labelProblem n.line "Every label should be a dictionary"]

def checkLabels (_ : Session) (v : NodeVisit) : List Problem :=
  if v.isSection ["labels", "blueprint_labels", dashedLabels] then
    (if v.key? = some dashedLabels then
        [labelProblem ((v.keyNode.map Node.line).getD v.node.line)
          "The blueprint_labels key should be written with an underscore not a dash."]
      else []) ++
    checkLabelSection (v.key? == some "labels") v.node
  else []

def labels : Rule where
  name := "labels"
  description := "Checks labels and blueprint labels"
  check := .eachNode checkLabels

end Blueprint.Rules
