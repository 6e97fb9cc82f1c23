import Blueprint.Lint.Rule
import Blueprint.Lint.Vocabulary

/-!
The version of the blueprint language, and the input types that it rules out.
-/

namespace Blueprint.Rules

def checkSupported (c : RuleSettings) (version : String) (line : Nat) : List Problem :=
  if (c.list "supported-versions").contains version then []
  else [.onLine "dsl_version" line ("dsl_version not supported: " ++ version)]

def checkRestricted (version inputType : String) (line : Nat) : List Problem :=
  if version = Vocabulary.restrictedVersion ∧ inputType ∈ Vocabulary.restrictedTypes then
    [.onLine "dsl_version" line ("invalid type for " ++ version ++ ": " ++ inputType)]
  else []

/-- Whether the node is the type of an input. -/
def isInputType (v : NodeVisit) : Bool :=
  v.key? == some "type" &&
    match v.path with
    | [.key outer, .key _, _] => outer == "inputs"
    | _ => false

def checkVersion (c : RuleSettings) (v : NodeVisit) (s : Session) : Findings :=
  match v.node.text? with
  | none => ([], s)
  | some text =>
    if v.isSection ["tosca_definitions_version"] then
      (checkSupported c text v.node.line,
        s.withContext { s.context with version := some text })
    else if isInputType v then
      ((s.context.version.map fun version => checkRestricted version text v.node.line).getD [], s)
    else ([], s)

def version : Rule where
  name := "dsl_version"
  description := "Checks the declared DSL version"
  options := [⟨"supported-versions", .list Vocabulary.supportedVersions⟩]
  check := .nodes checkVersion

end Blueprint.Rules
