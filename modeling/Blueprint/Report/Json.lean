import Blueprint.Document.Generic
import Blueprint.Report.Severity

/-!
Reports for programs: a list of objects, indented by two spaces.
-/

namespace Blueprint.Report

/-- The fields of a problem with their values. A missing column is left out. -/
def fields (p : Problem) : List (String × String) :=
  [("file", Generic.quoted p.fileName), ("line", toString p.line)]
    ++ (p.column.map fun c => ("column", toString c)).toList
    ++ [("level", Generic.quoted p.level.name), ("rule", Generic.quoted p.rule),
      ("message", Generic.quoted p.message), ("severity", toString p.severity)]

def jsonObject (p : Problem) : String :=
  let lines := (fields p).map fun (name, value) => "    " ++ Generic.quoted name ++ ": " ++ value
  "  \x7b\n" ++ ",\n".intercalate lines ++ "\n  \x7d"

def json (problems : List Problem) : String :=
  if problems.isEmpty then "[]\n"
  else "[\n" ++ ",\n".intercalate (problems.map jsonObject) ++ "\n]\n"

end Blueprint.Report
