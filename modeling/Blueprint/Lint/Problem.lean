import Blueprint.Lint.Level

/-!
Problems: what rules report. Two problems at one place of one rule are the same problem, whatever
they say.
-/

namespace Blueprint

/-- What a repair has to know beyond the place of its problem. -/
inductive Repair where
  /-- Replace a text on the line. -/
  | replace (old new : String)
  /-- Give the input of this name a label. -/
  | addLabel (name : String)
deriving DecidableEq

structure Problem where
  line : Nat
  /-- The column from 1, where the problem has one. -/
  column : Option Nat
  rule : String
  message : String
  level : Level := .error
  fixable : Bool := false
  repair : Option Repair := none
  file : Option String := none
deriving DecidableEq

namespace Problem

def asFixable (p : Problem) : Problem :=
  { p with fixable := true }

def withRepair (p : Problem) (r : Repair) : Problem :=
  { p with fixable := true, repair := some r }

/-- The rule under which faults of the YAML text are reported. -/
def textRule : String := "syntax"

def isTextFault (p : Problem) : Bool :=
  p.rule == textRule

def same (p q : Problem) : Bool :=
  p.line == q.line && p.column == q.column && p.rule == q.rule

/-- A missing column comes before every column. -/
def columnBefore : Option Nat → Option Nat → Bool
  | none, some _ => true
  | some a, some b => a < b
  | _, none => false

def placeBefore (p q : Problem) : Bool :=
  p.line < q.line || (p.line == q.line && columnBefore p.column q.column)

/-- The order of a list of problems: by place, then by rule. -/
def before (p q : Problem) : Bool :=
  placeBefore p q || (!placeBefore q p && p.rule < q.rule)

end Problem

end Blueprint
