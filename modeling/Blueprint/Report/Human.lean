import Blueprint.Report.Severity

/-!
Reports for people: a line for each problem, then how many there are.
-/

namespace Blueprint.Report

/-- A line of the report. The message of a text fault names its rule itself. -/
def humanLine (p : Problem) : String :=
  p.fileName ++ ":" ++ toString p.line ++ ":" ++ toString (p.column.getD 1) ++ ": ["
    ++ p.level.name ++ "] " ++ p.message
    ++ (if p.isTextFault then "" else " (" ++ p.rule ++ ")") ++ "\n"

def summary (problems : List Problem) : String :=
  "\nFound " ++ toString (problems.countP (·.isError)) ++ " error(s) and "
    ++ toString (problems.countP (!·.isError)) ++ " warning(s)\n"

def human (problems : List Problem) : String :=
  String.join (problems.map humanLine) ++ if problems.isEmpty then "" else summary problems

end Blueprint.Report
