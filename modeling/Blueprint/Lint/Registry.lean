import Blueprint.Lint.Rules.Declarations
import Blueprint.Lint.Rules.Imports
import Blueprint.Lint.Rules.Indented
import Blueprint.Lint.Rules.Inputs
import Blueprint.Lint.Rules.Lines
import Blueprint.Lint.Rules.NodeTypes
import Blueprint.Lint.Rules.Relationships
import Blueprint.Lint.Rules.Spacing
import Blueprint.Lint.Rules.Templates
import Blueprint.Lint.Rules.Values
import Blueprint.Lint.Rules.Version

/-!
The rules of a run, in the order in which they see an element.
-/

namespace Blueprint

/-- Rules with distinct names. -/
structure Registry where
  rules : List Rule

namespace Registry

def empty : Registry := ⟨[]⟩

/-- Adds a rule at the end, or in the place of the rule with the same name. -/
def register (g : Registry) (r : Rule) : Registry :=
  if g.rules.any (·.name == r.name) then
    ⟨g.rules.map fun old => if old.name = r.name then r else old⟩
  else ⟨g.rules ++ [r]⟩

def ofRules (rules : List Rule) : Registry :=
  rules.foldl register empty

def get? (g : Registry) (name : String) : Option Rule :=
  g.rules.find? (·.name == name)

def ofKind (g : Registry) (kind : ElementKind) : List Rule :=
  g.rules.filter (·.kind == kind)

def size (g : Registry) : Nat :=
  g.rules.length

/-- The rules that check the blueprint language. -/
def languageRules : List Rule :=
  [Rules.version, Rules.imports, Rules.inputs, Rules.nodeTemplates, Rules.relationships,
   Rules.capabilities, Rules.definitions, Rules.labels, Rules.nodeTypes]

/-- The rules that check how the text is written. -/
def styleRules : List Rule :=
  [Rules.braces, Rules.brackets, Rules.colons, Rules.commas, Rules.comments, Rules.emptyLines,
   Rules.emptyValues, Rules.hyphens, Rules.indentation, Rules.keyDuplicates, Rules.lineLength,
   Rules.newLines, Rules.trailingSpaces, Rules.truthy]

def builtin : Registry :=
  ⟨styleRules ++ languageRules⟩

/-- Whether a name is that of a rule about the blueprint language. -/
def isLanguageRule (name : String) : Bool :=
  languageRules.any (·.name == name)

end Registry

end Blueprint
