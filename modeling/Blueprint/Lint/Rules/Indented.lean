import Blueprint.Lint.Rule

/-!
The rule that checks the indentation of every token that starts its line.
-/

namespace Blueprint.Rules

/-- The state at the start of a document: the unit is known if it is set to a number. -/
def freshIndentation (c : RuleSettings) : Indentation :=
  let unit :=
    match c.get? "spaces" with
    | some (.int i) => some i
    | _ => none
  .start unit (.ofOption (c.text "indent-sequences"))

def checkIndentation (c : RuleSettings) (t : TokenView) (s : Session) : Findings :=
  let state :=
    if t.curr.kind = .streamStart ∨ s.indentation.frames = [] then freshIndentation c
    else s.indentation
  let (verdict, indentation) := state.check t
  let problem (message : String) : Problem :=
    { line := t.curr.start.line, column := some (t.curr.start.column + 1), rule := "indentation",
      message, fixable := verdict != .unexpected }
  ((verdict.message?.map problem).toList, { s with indentation })

def indentation : Rule where
  name := "indentation"
  description := "Checks indentation of collections"
  options :=
    [⟨"spaces", .intOr "consistent" 2⟩,
     ⟨"indent-sequences", .oneOf ["true", "false", "whatever", "consistent"] "consistent"⟩]
  repairs := true
  check := .tokens checkIndentation

end Blueprint.Rules
