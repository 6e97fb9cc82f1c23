import Blueprint.Lint.Option

/-!
What can stop a run before or beside its problems, and how it is said.
-/

namespace Blueprint

/-- What is wrong with the shape of a configuration. -/
inductive ConfigFault where
  | extending (found : String)
  | ruleName
  | ruleEntry (rule : String)
  | pattern (text : String) (fault : Glob.Fault)
deriving DecidableEq

inductive LintFailure where
  | fileNotFound (path : String)
  | config (fault : ConfigFault)
  | unknownRule (name : String)
  | option (rule name : String) (fault : OptionFault)
  | selection (value : String)
  /-- The indentation of this line cannot be derived anew. -/
  | indentation (path : String) (line : Nat)
  /-- A text that is to be linted cannot be read. -/
  | unreadable (path : String)
  /-- A file cannot be read or written. -/
  | file
  /-- A text is no settings text of the shape that is asked for. -/
  | settings
deriving DecidableEq

def ConfigFault.message : ConfigFault → String
  | extending found => "extends is not supported (found '" ++ found ++ "')"
  | ruleName => "rule ids must be strings"
  | ruleEntry rule => "rule '" ++ rule ++ "' must be enable, disable or a mapping of options"
  | pattern text fault => "invalid ignore pattern '" ++ text ++ "': " ++ fault.message

def LintFailure.message : LintFailure → String
  | fileNotFound path => "File not found: " ++ path
  | config fault => "Invalid configuration: " ++ fault.message
  | unknownRule name => "Unknown rule: " ++ name
  | option rule name fault =>
    "Invalid option '" ++ name ++ "' for rule '" ++ rule ++ "': " ++ fault.message
  | selection value => "Invalid fix selection '" ++ value ++ "', expected RULE=LINE"
  | indentation path line =>
    "Unable to autofix indentation for line " ++ toString line ++ " in " ++ path
      ++ ": unsupported YAML"
  | unreadable path => "failed to read " ++ path
  | file => "IO error"
  | settings => "YAML error"

end Blueprint
