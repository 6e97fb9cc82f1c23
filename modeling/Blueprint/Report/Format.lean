import Blueprint.Report.Human
import Blueprint.Report.Json

/-!
The forms in which problems are reported.
-/

namespace Blueprint

inductive ReportFormat where
  | human
  | json
deriving DecidableEq

namespace ReportFormat

def name : ReportFormat → String
  | human => "human"
  | json => "json"

def ofName? (s : String) : Option ReportFormat :=
  if s = "human" then some human else if s = "json" then some json else none

/-- What is said of a name that is no format. -/
def unknownMessage (s : String) : String :=
  "unknown format '" ++ s ++ "', expected human or json"

def render (problems : List Problem) : ReportFormat → String
  | human => Report.human problems
  | json => Report.json problems

end ReportFormat

end Blueprint
