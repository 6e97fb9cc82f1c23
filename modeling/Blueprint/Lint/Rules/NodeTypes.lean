import Blueprint.Lint.Rule
import Blueprint.Lint.Vocabulary
import Blueprint.Text.Case

/-!
Declarations of node types: their names, the types they are derived from, and the types of their
properties.
-/

namespace Blueprint.Rules

def nodeTypeProblem (line : Nat) (message : String) : Problem :=
  .onLine "node_types" line message

mutual

/-- The types that a definition mentions, with their lines. -/
def mentionedTypes : Node → List (String × Nat)
  | .mapping _ _ _ entries => mentionedInEntries entries
  | _ => []

def mentionedInEntries : List (Node × Node) → List (String × Nat)
  | [] => []
  | (k, v) :: r =>
    (match v.text? with
      | some text => if k.isText "type" then [(text, v.line)] else []
      | none => mentionedTypes v) ++ mentionedInEntries r

end

def startsUpper (s : List Char) : Bool :=
  s.head?.any Text.isUppercase

/-- Whether a name has lower-case namespaces and starts with an upper-case letter after them. -/
def isCamelCased (namespaces : List (List Char)) (last : List Char) : Bool :=
  startsUpper last && !namespaces.any startsUpper

def camelCased (namespaces : List (List Char)) (last : List Char) : String :=
  let last :=
    match last with
    | [] => []
    | c :: r => Text.upperOf c ++ r
  ".".intercalate ((namespaces.map Text.lowercase ++ [last]).map String.ofList)

def checkTypeName (s : Session) (name : String) (line : Nat) : List Problem :=
  let segments := Text.pieces '.' name.toList
  let namespaces := segments.dropLast
  let last := segments.getLastD []
  let holds (namespaceName : String) : Bool := namespaces.contains namespaceName.toList
  (if holds "nativeedge" && holds "nodes" then []
    else
      [nodeTypeProblem line
        ("node types should follow naming convention nativeedge.nodes.*: " ++ name)]) ++
  (if isCamelCased namespaces last || !s.suggests "node_types" then []
    else
      [nodeTypeProblem line
        ("incorrect camel case " ++ name ++ ". Suggested: " ++ camelCased namespaces last)])

/-- Checks the mentioned types where all types are known. -/
def checkMentionedTypes (c : Context) (definition : Node) : List Problem :=
  match c.version.bind fun v => (Vocabulary.inputTypesOf? v).map fun types => (v, types) with
  | none => []
  | some (version, supported) =>
    if c.unresolvedImports then []
    else
      ((mentionedTypes definition).filter fun (name, _) =>
        !supported.contains name && !c.dataTypes.contains name).map fun (name, line) =>
          nodeTypeProblem line
            ("Type " ++ name ++ " is not supported by DSL " ++ version
              ++ " and has not been defined in the blueprint or plugin.")

/-- The type that a node type is derived from. -/
def parentType? (definition : Node) : Option String :=
  (definition.get? "derived_from").bind Node.text?

def checkNodeType (s : Session) (name : String) (line : Nat) (definition : Node) : List Problem :=
  (if (parentType? definition).isSome then []
    else
      [nodeTypeProblem line ("node type " ++ name ++ " does not declare derived_from.")]) ++
  (if Vocabulary.isOlderVersion s.context.version then [] else checkTypeName s name line) ++
  checkMentionedTypes s.context definition

/-- Parent types count as used. -/
def checkNodeTypes (_ : RuleSettings) (v : NodeVisit) (s : Session) : Findings :=
  if v.isSection ["node_types"] then
    let declared := v.node.namedEntries
    let parents := declared.filterMap fun (_, _, definition) => parentType? definition
    (declared.flatMap fun (name, key, definition) => checkNodeType s name key.line definition,
      s.withContext (parents.foldl Context.useType s.context))
  else ([], s)

def nodeTypes : Rule where
  name := "node_types"
  description := "Checks node type declarations"
  check := .nodes checkNodeTypes

end Blueprint.Rules
