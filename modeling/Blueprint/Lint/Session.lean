import Blueprint.Files
import Blueprint.Lint.Context
import Blueprint.Lint.Import
import Blueprint.Lint.Indent
import Blueprint.Setting.Read

/-!
What rules share during one run: the context, the file and the files around it, and the state of the
indentation check.
-/

namespace Blueprint

structure Session where
  context : Context := {}
  file : Option String := none
  /-- The rules that make no suggestions. -/
  quiet : List String := []
  indentation : Indentation := {}
  files : Files := .empty

namespace Session

/-- Whether a rule may make suggestions. -/
def suggests (s : Session) (rule : String) : Bool :=
  !s.quiet.contains rule

def withContext (s : Session) (c : Context) : Session :=
  { s with context := c }

/-- The place of a path that is relative to the file. -/
def resolve (s : Session) (path : String) : String :=
  Files.join ((s.file.map Files.parent).getD "") path

/-- The node types that a settings text declares. -/
def declaredTypes (document : Setting) : List String :=
  (((document.get? "node_types").bind Setting.entries?).getD []).filterMap fun (k, _) => k.text?

/-- Enters the node types of an imported file. -/
def importFile (s : Session) (path : String) (line : Nat) : Session :=
  match (s.files.read? (s.resolve path)).bind Setting.ofText? with
  | none => s.withContext { s.context with unresolvedImports := true }
  | some document =>
    let types := declaredTypes document
    let c := s.context
    if types.isEmpty then s
    else
      s.withContext
        { c with
          importedTypes := c.importedTypes.addAll types
          unusedImports :=
            if c.unusedImports.contains path then c.unusedImports
            else c.unusedImports.insert path ⟨line, .ofNames types⟩ }

/-- Enters what an item of the imports stands for. -/
def importItem (s : Session) (item : Node) : Session :=
  let unresolved := s.withContext { s.context with unresolvedImports := true }
  match item.text? with
  | none => unresolved
  | some text =>
    let r := ImportReference.ofText text
    if r.isRemote then unresolved
    else if r.scheme ≠ "" || !r.hasYamlName || r.isBuiltin then s
    else if s.files.exists? (s.resolve r.path) then s.importFile r.path item.line
    else s

/-- Enters the names that a document declares or imports. -/
def index (s : Session) (root : Node) : Session :=
  let items := ((root.get? "imports").map Node.items).getD []
  items.foldl importItem (s.withContext (s.context.index root))

end Session

end Blueprint
