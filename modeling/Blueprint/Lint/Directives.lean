import Blueprint.Document.Comment
import Blueprint.Lint.Problem
import Blueprint.Text.Cut

/-!
Comments that switch rules off: for the rest of a document, for a line, or for a whole file.
-/

namespace Blueprint

/-- A directive with the rules that it names; one that names none is about every rule. -/
inductive Directive where
  | disable (rules : List String)
  | enable (rules : List String)
  | disableLine (rules : List String)
deriving DecidableEq

namespace Directive

/-- The name in `rule:name`. -/
def ruleName? (item : List Char) : Option String :=
  match Text.after? "rule:".toList item with
  | some name =>
    if name.isEmpty || name.any Text.isBlank then none else some (String.ofList name)
  | none => none

/-- The names of ` rule:a rule:b`, each after one space, with white space at the end. -/
def ruleNames? (items : List Char) : Option (List String) :=
  match Text.pieces ' ' (Text.trimEnd items) with
  | [] :: names => names.mapM ruleName?
  | _ => none

def ofComment? (text : List Char) : Option Directive :=
  let named (start : String) (make : List String → Directive) : Option Directive :=
    ((Text.after? start.toList text).bind ruleNames?).map make
  (named "# yamllint disable" disable).or <|
    (named "# yamllint enable" enable).or (named "# yamllint disable-line" disableLine)

/-- Whether a first line switches the rules off for its whole file. -/
def coversFile (line : List Char) : Bool :=
  match line with
  | '#' :: r =>
    match Text.after? "yamllint disable-file".toList (Text.trimStart r) with
    | some rest => rest.all Text.isBlank
    | none => false
  | _ => false

end Directive

/-- Which rules are switched off. `history` holds the rules that were off at the end of a line, the
last line first. -/
structure Directives where
  rules : List String
  disabled : List String := []
  onLine : List String := []
  onNextLine : List String := []
  history : List (Nat × List String) := []

namespace Directives

/-- The rules among `all` that a directive is about. -/
def meant (all named : List String) : List String :=
  if named.isEmpty then all else named.filter all.contains

def apply (d : Directives) (inline : Bool) : Directive → Directives
  | .disable names => { d with disabled := meant d.rules names ++ d.disabled }
  | .enable names =>
    { d with disabled := if names.isEmpty then [] else d.disabled.filter (!names.contains ·) }
  | .disableLine names =>
    let rules := meant d.rules names
    if inline then { d with onLine := rules ++ d.onLine }
    else { d with onNextLine := rules ++ d.onNextLine }

/-- Obeys a comment, if it is a directive. -/
def readComment (d : Directives) (text : List Char) (inline : Bool) : Directives :=
  match Directive.ofComment? text with
  | some directive => d.apply inline directive
  | none => d

/-- The rules that are off on the line being read. -/
def off (d : Directives) : List String :=
  d.disabled ++ d.onLine

def isOff (d : Directives) (rule : String) : Bool :=
  d.off.contains rule

/-- Whether a rule was off on a line that has ended. -/
def wasOff (d : Directives) (line : Nat) (rule : String) : Bool :=
  ((d.history.lookup line).getD []).contains rule

/-- Ends a line: what was said about the next line now holds. -/
def endLine (d : Directives) (line : Nat) : Directives :=
  { d with
    history := if d.off.isEmpty then d.history else (line, d.off) :: d.history
    onLine := d.onNextLine
    onNextLine := [] }

end Directives

end Blueprint
