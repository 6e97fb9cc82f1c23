import Blueprint.Lint.Rule
import Blueprint.Lint.Vocabulary

/-!
The imports of a blueprint: references have to lead somewhere, and imported types have to be used.
-/

namespace Blueprint.Rules

def importProblem (line : Nat) (message : String) : Problem :=
  .onLine "imports" line message

/-- Of this plugin version three or a later one is needed. -/
def checkPluginVersion (r : ImportReference) (line : Nat) : List Problem :=
  if r.query = "" || r.constraints.any ImportReference.allowsThree then []
  else
    [importProblem line
      ("The Openstack Plugin version " ++ Vocabulary.inBrackets r.constraints
        ++ " is deprecated. Please update to Openstack version 3 or higher.")]

/-- An item without a text is accepted if it is a mapping that starts with a plugin. -/
def checkOtherImport (item : Node) : List Problem :=
  if item.entries.head?.any fun (k, _) => k.isText "plugin" then []
  else [importProblem item.line "import is not a string."]

def checkRemoteImport (r : ImportReference) (text : String) (line : Nat) : List Problem :=
  if r.scheme = "plugin" ∧ r.path ∈ ImportReference.versionedPlugins then
    checkPluginVersion r line
  else if r.scheme = "https" ∧ !r.hasYamlName then
    [importProblem line ("invalid import. " ++ text)]
  else []

def checkFileImport (s : Session) (r : ImportReference) (text : String) (line : Nat) :
    List Problem :=
  if r.scheme ≠ "" then
    [importProblem line ("invalid import. " ++ r.scheme ++ " scheme not accepted")]
  else if !r.hasYamlName then
    [importProblem line ("invalid import. " ++ text ++ " is not a yaml file")]
  else if r.isBuiltin || s.files.exists? (s.resolve r.path) then []
  else
    [importProblem line
      ("relative import \"- " ++ r.path ++ "\" declared, but the file path does not exist.")]

def checkImport (s : Session) (item : Node) : List Problem :=
  match item.text? with
  | none => checkOtherImport item
  | some text =>
    let r := ImportReference.ofText text
    if r.isRemote then checkRemoteImport r text item.line
    else checkFileImport s r text item.line

def checkImports (s : Session) (v : NodeVisit) : List Problem :=
  if v.isSection ["imports"] then
    match v.node.items? with
    | some items => items.flatMap (checkImport s)
    | none =>
      if v.node.isText "" then [] else [importProblem v.node.line "imports must be a list."]
  else []

/-- The types of the node templates count as used; what is left has not been used. -/
def finishImports (_ : RuleSettings) (s : Session) : Findings :=
  let used := s.context.templates.values.filterMap (·.nodeType)
  let c := used.foldl Context.useType s.context
  (c.unusedImports.entries.map fun (path, i) =>
      importProblem i.line ("unused import item: " ++ path),
    s.withContext c)

def imports : Rule where
  name := "imports"
  description := "Checks imported plugins and files"
  check := .eachNode checkImports
  finish := finishImports

end Blueprint.Rules
