import Blueprint.Files
import Blueprint.Fix.Shifts
import Blueprint.Fix.Reindent
import Blueprint.Fix.Selection

/-!
Repairing a file. The selected problems are repaired in the order of their lines, and the file is
written after every repair that changes it; an error keeps what has been written.
-/

namespace Blueprint

/-- The selected problems whose repair changed the file, and those where there was nothing to do. -/
structure FixSummary where
  fixed : List Problem := []
  unchanged : List Problem := []

namespace FixSummary

def isFixed (r : FixSummary) (p : Problem) : Bool :=
  r.fixed.any (·.same p)

def add (r : FixSummary) (p : Problem) (changed : Bool) : FixSummary :=
  if changed then { r with fixed := r.fixed ++ [p] } else { r with unchanged := r.unchanged ++ [p] }

end FixSummary

namespace Fix

/-- The repair of a rule's problems that need nothing but their place. -/
def ofRule (p : Problem) (lines : FileLines) (index : Nat) : Option FileLines.Change :=
  match p.rule with
  | "truthy" => some (lines.mapContent Content.lowerTruth index)
  | "trailing-spaces" => some (lines.mapContent Content.trimSpaces index)
  | "colons" => some (lines.mapContent Content.spaceColon index)
  | "commas" => some (lines.mapContent Content.spaceCommas index)
  | "brackets" => some (lines.mapContent (Content.spaceBrackets '[' ']') index)
  | "braces" => some (lines.mapContent (Content.spaceBrackets '{' '}') index)
  | "empty-lines" => some (lines.removeBlank p.message index)
  | "new-lines" => some (lines.endWithFeed index)
  | "indentation" => lines.reindent? index
  | _ => some none

/-- Repairs a problem at a line; `none` if its indentation cannot be derived. -/
def apply (p : Problem) (lines : FileLines) (index : Nat) : Option FileLines.Change :=
  if lines.length ≤ index then some none
  else
    match p.repair with
    | some (.replace old new) => some (lines.replace old new index)
    | some (.addLabel name) => some (lines.insertLabel name index)
    | none => ofRule p lines index

/-- The last problem that was repaired, by line and rule, and whether that changed the file. -/
structure Last where
  line : Nat
  rule : String
  changed : Bool

/-- The state between two repairs. -/
structure State where
  files : Files
  lines : FileLines
  offsets : LineShifts := .empty
  report : FixSummary := {}
  last : Option Last := none

/-- Whether a problem shares the repair of the last one: it has the same rule and line and needs
nothing but its place. -/
def State.settled? (s : State) (p : Problem) : Option Bool :=
  s.last.bind fun l =>
    if l.line = p.line ∧ l.rule = p.rule ∧ p.repair = none then some l.changed else none

/-- Takes over a repair. -/
def State.accept (s : State) (path : String) (p : Problem) (change : FileLines.Change) :
    Except LintFailure State :=
  let changed := change.isSome
  let s := { s with report := s.report.add p changed, last := some ⟨p.line, p.rule, changed⟩ }
  match change with
  | none => .ok s
  | some (lines, delta) =>
    match s.files.write? path (String.ofList lines.flatten) with
    | some files => .ok { s with files, lines, offsets := s.offsets.record p.line delta }
    | none => .error .file

/-- Repairs one problem, or gives it the verdict of the last one. -/
def step (path : String) (s : State) (p : Problem) : Except LintFailure State :=
  match s.settled? p with
  | some changed => .ok { s with report := s.report.add p changed }
  | none =>
    match apply p s.lines (s.offsets.current p.line - 1) with
    | none => .error (.indentation path p.line)
    | some change => s.accept path p change

/-- Repairs problems one after the other, up to an error. -/
def steps (path : String) (s : State) : List Problem → State × Option LintFailure
  | [] => (s, none)
  | p :: r =>
    match step path s p with
    | .ok s => steps path s r
    | .error e => (s, some e)

/-- The selected problems by line; on one line they keep their order. -/
def selected (selection : Selection) (problems : List Problem) : List Problem :=
  sortBy (fun p q => p.line < q.line) (problems.filter selection.selects)

/-- Repairs the selected problems of a file, and yields the files after that. -/
def repairFile (fs : Files) (selection : Selection) (path : String) (problems : List Problem) :
    Files × Except LintFailure FixSummary :=
  let chosen := selected selection problems
  if chosen.isEmpty then (fs, .ok {})
  else if !fs.exists? path then (fs, .error (.fileNotFound path))
  else
    match fs.read? path with
    | none => (fs, .error .file)
    | some text =>
      let (s, error) := steps path { files := fs, lines := .ofChars text.toList } chosen
      (s.files, match error with
        | some e => .error e
        | none => .ok s.report)

end Fix

end Blueprint
