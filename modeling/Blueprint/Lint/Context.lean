import Blueprint.Document.Element

/-!
What is known of a document while it is being linted: the section that the token stream is in, and
the tables of declared names. `Context.update` follows the tokens; `Context.index` fills the tables
from the tree, so that a name can be used before its declaration.
-/

namespace Blueprint

open Yaml (TokenKind)

namespace Sections

/-- The top-level sections of a blueprint. -/
def known : List String :=
  ["tosca_definitions_version", "description", "imports", "inputs", "dsl_definitions",
   "data_types", "node_types", "relationships", "node_templates", "outputs", "capabilities",
   "labels", "blueprint_labels", "workflows", "policies", "groups"]

/-- The parts of a node template. -/
def templateParts : List String :=
  ["type", "properties", "interfaces", "relationships", "capabilities"]

/-- The sections that read inputs. -/
def readingInputs : List String :=
  ["node_templates", "outputs", "capabilities"]

end Sections

structure TemplateInfo where
  line : Nat
  nodeType : Option String
  /-- The targets of its relationships, in order. -/
  targets : List String
deriving DecidableEq

/-- A file that is imported, with the node types that it declares. -/
structure ImportedFile where
  line : Nat
  nodeTypes : NameSet

structure Context where
  /-- Whether the stream is between its first and its last token. -/
  reading : Bool := false
  /-- Missing before the first section, empty between two sections. -/
  currentSection : Option String := none
  currentPart : Option String := none
  /-- The sections that have been entered. -/
  sections : NameSet := .empty
  version : Option String := none
  inputs : Table Nat := .empty
  templates : Table TemplateInfo := .empty
  nodeTypes : Table Nat := .empty
  outputs : Table Nat := .empty
  capabilities : Table Nat := .empty
  dataTypes : NameSet := .empty
  definitions : NameSet := .empty
  /-- The inputs that nothing has read, with their lines. -/
  unusedInputs : Table Nat := .empty
  /-- The imports of which nothing has been used, by path. -/
  unusedImports : Table ImportedFile := .empty
  importedTypes : NameSet := .empty
  /-- Whether there is an import that cannot be looked into. -/
  unresolvedImports : Bool := false
  finished : Bool := false

instance : Inhabited Context := ⟨{}⟩

namespace Context

def opensCollection : TokenKind → Bool
  | .blockMappingStart | .blockSequenceStart | .flowMappingStart | .flowSequenceStart
  | .blockEntry => true
  | _ => false

def beforeCollection (t : TokenView) : Bool :=
  t.nextKind == some .value && t.nextNext.any fun l => opensCollection l.kind

/-- The section that the token enters, or the empty text if it leaves one. -/
def sectionAt (t : TokenView) : Option String :=
  if t.curr.kind = .blockEnd ∧ t.path.length = 2 then some ""
  else if t.path.length = 1 then
    t.keyScalar?.map fun key =>
      if Sections.known.contains key && beforeCollection t then key else ""
  else none

/-- The part of a node template that the token enters. -/
def templatePartAt (t : TokenView) : Option String :=
  if t.path.length = 3 then t.keyScalar?.filter Sections.templateParts.contains else none

def inTemplates (c : Context) : Bool :=
  c.currentSection == some "node_templates"

/-- Enters a section. A node template may have inputs of its own. -/
def enter (c : Context) (name : String) : Context :=
  if c.inTemplates && name == "inputs" then c
  else
    { c with
      sections := if name = "" then c.sections else c.sections.add name
      currentSection := some name }

def enterPart (c : Context) (t : TokenView) : Context :=
  if c.inTemplates then { c with currentPart := (templatePartAt t).or c.currentPart }
  else { c with currentPart := none }

/-- Follows a token. -/
def update (c : Context) (t : TokenView) : Context :=
  match t.curr.kind with
  | .streamStart =>
    { c with reading := true, currentSection := none, currentPart := none, finished := false }
  | .streamEnd => { c with reading := false, finished := true }
  | _ =>
    if c.reading then
      let c :=
        match sectionAt t with
        | some name => c.enter name
        | none => c
      c.enterPart t
    else c

/-- What a top-level section declares. -/
def declarations (root : Node) (name : String) : List (String × Node × Node) :=
  ((root.get? name).map Node.namedEntries).getD []

def targetsOf (template : Node) : List String :=
  (((template.get? "relationships").map Node.items).getD []).filterMap fun r =>
    (r.get? "target").bind Node.text?

def templateInfo (key template : Node) : TemplateInfo :=
  ⟨key.line, (template.get? "type").bind Node.text?, targetsOf template⟩

/-- The inputs of a document that have a definition, with their lines. -/
def definedInputs (root : Node) : List (String × Nat) :=
  (declarations root "inputs").filterMap fun (name, key, body) =>
    if body.entries.isEmpty then none else some (name, key.line)

def insertAll {α : Type} (t : Table α) (entries : List (String × α)) : Table α :=
  entries.foldl (fun t (k, v) => t.insert k v) t

/-- Enters the names that a document declares. -/
def index (c : Context) (root : Node) : Context :=
  { c with
    version := ((root.get? "tosca_definitions_version").bind Node.text?).or c.version
    nodeTypes :=
      insertAll c.nodeTypes
        ((declarations root "node_types").map fun (name, key, _) => (name, key.line))
    dataTypes := c.dataTypes.addAll ((declarations root "data_types").map (·.1))
    definitions := c.definitions.addAll ((declarations root "dsl_definitions").map (·.1))
    inputs := insertAll c.inputs (definedInputs root)
    unusedInputs := insertAll c.unusedInputs (definedInputs root)
    templates :=
      insertAll c.templates
        ((declarations root "node_templates").map fun (name, key, body) =>
          (name, templateInfo key body)) }

/-- Whether a section that can read inputs has been entered. -/
def readsInputs (c : Context) : Bool :=
  Sections.readingInputs.any c.sections.contains

/-- Whether a node type is declared here or in an imported file. -/
def knowsType (c : Context) (name : String) : Bool :=
  c.nodeTypes.contains name || c.importedTypes.contains name

/-- Marks the imports that declare a node type as used. -/
def useType (c : Context) (name : String) : Context :=
  { c with unusedImports := c.unusedImports.filter fun _ i => !i.nodeTypes.contains name }

def readInput (c : Context) (name : String) : Context :=
  { c with unusedInputs := c.unusedInputs.erase name }

end Context

end Blueprint
