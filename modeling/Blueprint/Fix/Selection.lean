import Blueprint.Error
import Blueprint.Lint.Problem
import Blueprint.Number.Integer
import Blueprint.Text.Blank
import Blueprint.Text.Cut

/-!
Which problems to repair: pairs of a rule and a line, where `all` and -1 stand for any.
-/

namespace Blueprint

/-- A rule and a line, where a missing one stands for any. -/
structure Selector where
  rule : Option String
  line : Option Nat
deriving DecidableEq

namespace Selector

def everyRule : String := "all"
def everyLine : Int := -1

def covers (s : Selector) (p : Problem) : Bool :=
  s.rule.all (· == p.rule) && s.line.all (· == p.line)

def line? (i : Int) : Option (Option Nat) :=
  if i = everyLine then some none else if 1 ≤ i then some (some i.toNat) else none

def ofText? (text : String) : Option Selector := do
  let (rule, line) ← Text.cutAt? '=' text.toList
  let rule := String.ofList (Text.trim rule)
  if rule = "" then none
  let line ← (Number.signed64? 10 (Text.trim line)).bind line?
  return ⟨if rule = everyRule then none else some rule, line⟩

end Selector

structure Selection where
  selectors : List Selector
deriving DecidableEq

namespace Selection

def all : Selection := ⟨[⟨none, none⟩]⟩

def isEmpty (s : Selection) : Bool :=
  s.selectors.isEmpty

def readSelector (text : String) : Except LintFailure Selector :=
  match Selector.ofText? text with
  | some s => .ok s
  | none => .error (.selection text)

def ofTexts (texts : List String) : Except LintFailure Selection :=
  (texts.mapM readSelector).map (⟨·⟩)

/-- The texts between commas that are not blank. -/
def splitText (text : String) : List String :=
  ((Text.pieces ',' text.toList).filter fun piece => !piece.all Text.isBlank).map String.ofList

def ofText (text : String) : Except LintFailure Selection :=
  ofTexts (splitText text)

/-- Whether a problem can be repaired and is to be. -/
def selects (s : Selection) (p : Problem) : Bool :=
  p.fixable && s.selectors.any (·.covers p)

end Selection

end Blueprint
