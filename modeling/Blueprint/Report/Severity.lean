import Blueprint.Lint.Registry

/-!
How a problem is classed and placed in a report.
-/

namespace Blueprint.Problem

/-- Faults of the text weigh most, then the rules of the blueprint language; the others weigh by
their level. -/
def severity (p : Problem) : Nat :=
  if p.isTextFault then 4
  else if Registry.isLanguageRule p.rule then 2
  else
    match p.level with
    | .warning => 0
    | .error => 1

def isError (p : Problem) : Bool :=
  p.level == .error

/-- The file of a problem; a text that is in no file was read from the standard input. -/
def fileName (p : Problem) : String :=
  p.file.getD "<stdin>"

end Blueprint.Problem
