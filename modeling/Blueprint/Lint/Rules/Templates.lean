import Blueprint.Lint.Rule
import Blueprint.Lint.Vocabulary

/-!
Node templates: their keys, the types they instantiate, what their functions refer to, and loops
among their relationships.
-/

namespace Blueprint

/-- Which templates a template depends on. -/
abbrev Dependencies := Table (List String)

namespace Dependencies

def targets (d : Dependencies) (name : String) : List String :=
  (d.get? name).getD []

/-- The outcome of a search: a loop, if one was found, and the names that have been visited. -/
abbrev Search := Option (List String) × List String

/-- Searches from each of the names in turn, until a loop is found. -/
def searchEach (search : List String → String → Search) (visited : List String) :
    List String → Search
  | [] => (none, visited)
  | name :: r =>
    match search visited name with
    | (some loop, visited) => (some loop, visited)
    | (none, visited) => searchEach search visited r

/-- Searches for a loop behind a name that is reached along `path`. -/
def searchFrom (d : Dependencies) : Nat → List String → List String → String → Search
  | 0, _, visited, _ => (none, visited)
  | fuel + 1, path, visited, name =>
    if name ∈ path then (some (path.dropWhile (· != name)), visited)
    else if name ∈ visited then (none, visited)
    else searchEach (searchFrom d fuel (path ++ [name])) (name :: visited) (d.targets name)

/-- A loop that can be reached from a name. A path without a loop has one name at most that has no
entry, its last. -/
def loopFrom? (d : Dependencies) (name : String) : Option (List String) :=
  (d.searchFrom (d.entries.length + 2) [] [] name).1

def sortedNames (names : List String) : List String :=
  sortBy (fun (a b : String) => a < b) names

/-- The loops from each of the names; loops with the same members count once. -/
def loopsFrom (d : Dependencies) (known : List (List String)) : List String → List (List String)
  | [] => []
  | name :: r =>
    match d.loopFrom? name with
    | none => loopsFrom d known r
    | some loop =>
      let members := sortedNames loop
      if members ∈ known then loopsFrom d known r
      else loop :: loopsFrom d (members :: known) r

def loops (d : Dependencies) : List (List String) :=
  d.loopsFrom [] d.keys

end Dependencies

namespace Rules

def templateProblem (line : Nat) (message : String) : Problem :=
  .onLine "node_templates" line message

def templateKeys : List String :=
  ["type", "description", "properties", "interfaces", "relationships", "capabilities", "instances"]

def operationKeys : List String :=
  ["implementation", "inputs", "executor", "max_retries", "retry_interval", "timeout",
   "timeout_recoverable"]

def relationshipKeys : List String :=
  ["target", "type", "source_interfaces", "target_interfaces"]

/-- Targets that are found relative to the template. -/
def relativeNames : List String :=
  ["SELF", "SOURCE", "TARGET"]

mutual

/-- The arguments of the calls of a function in a value, without those inside such arguments. -/
def callArguments (function : String) : Generic → List Generic
  | .dict fields => fieldArguments function fields
  | .list items => itemArguments function items
  | _ => []

def fieldArguments (function : String) : List (String × Generic) → List Generic
  | [] => []
  | (key, v) :: r =>
    (if key = function then [v] else callArguments function v) ++ fieldArguments function r

def itemArguments (function : String) : List Generic → List Generic
  | [] => []
  | v :: r => callArguments function v ++ itemArguments function r

end

/-- The template that a call reads from: the first item of its argument. -/
def calledTemplate? (argument : Generic) : Option String :=
  (argument.items?.bind List.head?).bind Generic.text?

def calledTemplates (function : String) (v : Generic) : List String :=
  (callArguments function v).filterMap calledTemplate?

/-- The texts of the keys that are not among `known`. -/
def unknownKeys (known : List String) (n : Node) : List String :=
  n.keyTexts.filter (!known.contains ·)

def checkTemplateKeys (body : Node) : List Problem :=
  (unknownKeys templateKeys body).map fun key =>
    templateProblem body.line
      ("Node template key " ++ key ++ " is not in schema: " ++ Vocabulary.inBrackets templateKeys)

/-- An older type is replaced by its successor, or by a guess that has no repair. -/
def checkOlderType (name : String) (line : Nat) : Problem :=
  let problem (new : String) : Problem :=
    templateProblem line
      ("deprecated node type. Replace usage of " ++ name ++ " with " ++ new ++ ".")
  match Vocabulary.newNodeType? name with
  | some new => (problem new).withRepair (.replace name new)
  | none => problem ("nativeedge" ++ String.ofList (name.toList.drop "cloudify".length))

def checkTypeUse (c : Context) (name : String) (line : Nat) : List Problem :=
  if Vocabulary.isOlder name then
    if Vocabulary.isOlderVersion c.version then [] else [checkOlderType name line]
  else if c.unresolvedImports || c.knowsType name || Vocabulary.builtinNodeTypes.contains name then
    []
  else [templateProblem line ("unimported node type: " ++ name)]

/-- Checks the type of a template and marks it as used. -/
def checkTemplateType (name : String) (body : Node) (s : Session) : Findings :=
  match body.get? "type" with
  | none =>
    ([templateProblem body.line ("node template " ++ name ++ " does not declare a type.")], s)
  | some kind =>
    match kind.text? with
    | none => ([], s)
    | some typeName =>
      let s := s.withContext (s.context.useType typeName)
      (checkTypeUse s.context typeName kind.line, s)

def isKnownTarget (c : Context) (target : String) : Bool :=
  relativeNames.contains target || c.templates.contains target

def checkCalledTemplates (c : Context) (line : Nat) (template : Generic) : List Problem :=
  ["get_property", "get_attribute"].flatMap fun function =>
    ((calledTemplates function template).filter (!isKnownTarget c ·)).map fun target =>
      templateProblem line (function ++ " references undefined target " ++ target)

/-- The templates that a template reads from without a relationship to them, each one once. -/
def unrelatedTargets (c : Context) (name : String) (properties : Generic) : List String :=
  let related := ((c.templates.get? name).map (·.targets)).getD []
  let unrelated (target : String) : Bool :=
    !(relativeNames.contains target || target == name || related.contains target)
      && c.templates.contains target
  ((calledTemplates "get_attribute" properties).filter unrelated).eraseDups

def checkExternal (line : Nat) (properties : Generic) : List Problem :=
  match properties.get? "use_external_resource" with
  | some (.bool true) =>
    if (properties.get? "resource_config").isSome then
      [templateProblem line
        "resource_config is not required, when use_external_resource is true."]
    else []
  | _ => []

def checkPropertySection (c : Context) (name : String) (line : Nat) (properties : Generic) :
    List Problem :=
  checkExternal line properties ++
    (unrelatedTargets c name properties).map fun target =>
      templateProblem line
        ("The node template '" ++ name
          ++ "' uses an intrinsic function with target node_template '" ++ target
          ++ "', but does not provide a relationship. Add a relationship under '" ++ name
          ++ "' with target '" ++ target ++ "'.")

def checkOperations (operations : Node) : List Problem :=
  operations.entries.flatMap fun (_, operation) =>
    (unknownKeys operationKeys operation).map fun key =>
      templateProblem operation.line
        ("Operation key " ++ key ++ " is not in schema: " ++ Vocabulary.inBrackets operationKeys
          ++ ".")

def checkInterfaceName (c : Context) (line : Nat) (name : Node) : List Problem :=
  if Vocabulary.isOlderVersion c.version then []
  else
    (name.text?.bind fun text =>
      (Vocabulary.newInterface? text).map fun new =>
        templateProblem line
          ("deprecated interfaces. Replace usage of " ++ text ++ " with " ++ new ++ ".")).toList

def checkInterfaceSection (c : Context) (line : Nat) (interfaces : Node) : List Problem :=
  interfaces.entries.flatMap fun (name, operations) =>
    checkOperations operations ++ checkInterfaceName c line name

def checkRelationshipKeys (relationships : Node) : List Problem :=
  relationships.items.flatMap fun relationship =>
    (unknownKeys relationshipKeys relationship).map fun key =>
      templateProblem relationship.line
        ("Relationship key " ++ key ++ " is not in schema: "
          ++ Vocabulary.inBrackets relationshipKeys)

def ofPart (body : Node) (name : String) (f : Node → List Problem) : List Problem :=
  ((body.get? name).map f).getD []

def checkTemplateBody (name : String) (body : Node) (s : Session) : Findings :=
  if !body.isMapping then ([], s)
  else
    let line := body.line
    let (ofType, s) := checkTemplateType name body s
    let c := s.context
    (checkTemplateKeys body ++ ofType ++ checkCalledTemplates c line body.value
        ++ ofPart body "properties" (fun n => checkPropertySection c name line n.value)
        ++ ofPart body "interfaces" (checkInterfaceSection c line)
        ++ ofPart body "relationships" checkRelationshipKeys, s)

/-- Checks templates one after the other. -/
def checkTemplateList (s : Session) : List (String × Node × Node) → Findings
  | [] => ([], s)
  | (name, _, body) :: r =>
    let (problems, s) := checkTemplateBody name body s
    let (later, s) := checkTemplateList s r
    (problems ++ later, s)

/-- Reports each loop at the last of its templates. -/
def checkLoops (templates : Table TemplateInfo) : List Problem :=
  let dependencies : Dependencies := ⟨templates.entries.map fun (name, t) => (name, t.targets)⟩
  dependencies.loops.map fun loop =>
    let lines := loop.filterMap fun name => (templates.get? name).map (·.line)
    templateProblem (lines.foldl max 0)
      ("A dependency loop consistent of " ++ Vocabulary.inBrackets loop ++ " was identified.")

def checkTemplates (_ : RuleSettings) (v : NodeVisit) (s : Session) : Findings :=
  if v.isSection ["node_templates"] then
    let (problems, s) := checkTemplateList s v.node.namedEntries
    (problems ++ checkLoops s.context.templates, s)
  else ([], s)

def nodeTemplates : Rule where
  name := "node_templates"
  description := "Checks node template definitions"
  repairs := true
  check := .nodes checkTemplates

end Rules

end Blueprint
