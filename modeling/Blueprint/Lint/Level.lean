/-!
How serious a problem is.
-/

namespace Blueprint

/-- Errors fail a run; warnings do not. -/
inductive Level where
  | warning
  | error
deriving DecidableEq

namespace Level

def name : Level → String
  | warning => "warning"
  | error => "error"

def ofName? (s : String) : Option Level :=
  if s = "warning" then some warning else if s = "error" then some error else none

/-- What is said of a name that is no level. -/
def unknownMessage (s : String) : String :=
  "unknown level '" ++ s ++ "', expected warning or error"

end Level

end Blueprint
