import Blueprint.Lint.Rule
import Blueprint.Lint.Vocabulary

/-!
Relationships: those that node templates list, and the declarations of relationship types.
-/

namespace Blueprint.Rules

def relationshipProblem (line : Nat) (message : String) : Problem :=
  .onLine "relationships" line message

/-- What the name of a relationship type starts with. -/
def relationshipStart : String := "nativeedge.relationships."

def lifecycleInterface : String := "nativeedge.interfaces.relationship_lifecycle"

def lifecycleSteps : List String :=
  ["preconfigure", "postconfigure", "establish", "unlink"]

def lifecycleKeys : List String :=
  ["implementation", "inputs"]

def checkRelationshipType (c : Context) (kind : Node) : List Problem :=
  (kind.text?.bind fun name =>
    if Vocabulary.isOlder name && !Vocabulary.isOlderVersion c.version then
      (Vocabulary.newRelationship? name).map fun new =>
        (relationshipProblem kind.line
          ("deprecated relationship type. Replace usage of " ++ name ++ " with " ++ new
            ++ ".")).withRepair (.replace name new)
    else none).toList

/-- A target has to be a node template of this document. -/
def checkTarget (c : Context) (target : Node) : List Problem :=
  if c.templates.contains (target.text?.getD "") then []
  else
    [relationshipProblem target.line
      ("relationship target node instance does not exist. The provided target is "
        ++ target.value.render ++ ". Possible options are: "
        ++ Vocabulary.inBrackets c.templates.keys ++ ".")]

def checkRelationshipItem (c : Context) (item : Node) : List Problem :=
  if !item.isMapping then
    [relationshipProblem item.line
      ("relationship must be a dict. The provided type is "
        ++ Vocabulary.kindName item.value)]
  else
    (match item.get? "type" with
      | some kind => checkRelationshipType c kind
      | none => [relationshipProblem item.line "no relationship type provided."]) ++
    match item.get? "target" with
    | some target => checkTarget c target
    | none => [relationshipProblem item.line "no relationship target provided."]

def checkRelationshipList (c : Context) (n : Node) : List Problem :=
  match n.items? with
  | some items => items.flatMap (checkRelationshipItem c)
  | none =>
    [relationshipProblem n.line
      ("relationships block must be a list. The provided type is "
        ++ Vocabulary.kindName n.value)]

/-- Reports operations that are not part of the lifecycle, in the order of their names. -/
def checkOperationNames (line : Nat) (lifecycle : Node) : List Problem :=
  let unexpected :=
    sortBy (fun (a b : String) => a < b)
      (lifecycle.keyTexts.filter (!lifecycleSteps.contains ·))
  if unexpected.isEmpty then []
  else
    let noun := if unexpected.length = 1 then "operation" else "operations"
    [relationshipProblem line
      ("unexpected " ++ noun ++ " in nativeedge.interfaces.lifecycle: "
        ++ Vocabulary.inBrackets unexpected)]

def checkOperation (line : Nat) (operation : String) (definition : Node) : List Problem :=
  if !definition.isMapping then []
  else
    let unexpected := definition.keyTexts.filter (!lifecycleKeys.contains ·)
    if !unexpected.isEmpty then
      [relationshipProblem line
        ("unexpected key in " ++ operation ++ " operation definition: "
          ++ Vocabulary.inBrackets unexpected)]
    else if (definition.get? "implementation").isNone then
      [relationshipProblem line
        (operation ++ " operation definition does not declare required implementation")]
    else []

def checkLifecycleEntries (line : Nat) (lifecycle : Node) : List Problem :=
  checkOperationNames line lifecycle ++
    lifecycleSteps.flatMap fun operation =>
      ((lifecycle.get? operation).map (checkOperation line operation)).getD []

def checkRelationshipName (key : Node) : List Problem :=
  match key.text? with
  | some name =>
    if name.startsWith relationshipStart then []
    else
      [relationshipProblem key.line
        ("relationship type name \"" ++ name ++ "\" should start with \"" ++ relationshipStart
          ++ "\"")]
  | none => []

def checkDeclaration (key definition : Node) : List Problem :=
  checkRelationshipName key ++
    ["source_interfaces", "target_interfaces"].flatMap fun side =>
      (((definition.get? side).bind (·.get? lifecycleInterface)).map
        (checkLifecycleEntries key.line)).getD []

/-- Whether the node stands in a node template. -/
def isInTemplate (v : NodeVisit) : Bool :=
  match v.path with
  | [.key outer, .key _, .key _] => outer == "node_templates"
  | _ => false

def checkRelationships (s : Session) (v : NodeVisit) : List Problem :=
  if v.key? ≠ some "relationships" then []
  else if isInTemplate v then checkRelationshipList s.context v.node
  else if v.depth = 1 ∧ !Vocabulary.isOlderVersion s.context.version then
    v.node.entries.flatMap fun (key, definition) => checkDeclaration key definition
  else []

def relationships : Rule where
  name := "relationships"
  description := "Checks relationships and relationship types"
  repairs := true
  check := .eachNode checkRelationships

end Blueprint.Rules
