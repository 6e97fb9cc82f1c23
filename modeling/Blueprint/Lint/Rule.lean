import Blueprint.Lint.Problem
import Blueprint.Lint.Session

/-!
Rules. A rule checks one kind of element, may enter names into the session, and may report at the
end what only the whole document shows.
-/

namespace Blueprint

/-- What a check reports and the session after it. -/
abbrev Findings := List Problem × Session

/-- The check of a rule, by the kind of element that it looks at. -/
inductive Check where
  | tokens (f : RuleSettings → TokenView → Session → Findings)
  | comments (f : RuleSettings → Comment → Session → Findings)
  | nodes (f : RuleSettings → NodeVisit → Session → Findings)
  | lines (f : RuleSettings → Line → Session → Findings)

structure Rule where
  name : String
  description : String
  options : List RuleOption := []
  level : Level := .error
  enabled : Bool := true
  /-- Whether some of its problems can be repaired. -/
  repairs : Bool := false
  check : Check
  finish : RuleSettings → Session → Findings := fun _ s => ([], s)

namespace Rule

def kind (r : Rule) : ElementKind :=
  match r.check with
  | .tokens _ => .token
  | .comments _ => .comment
  | .nodes _ => .node
  | .lines _ => .line

/-- Checks an element; elements of other kinds are passed over. -/
def run (r : Rule) (c : RuleSettings) (e : Element) (s : Session) : Findings :=
  match r.check, e with
  | .tokens f, .token t => f c t s
  | .comments f, .comment x => f c x s
  | .nodes f, .node v => f c v s
  | .lines f, .line l => f c l s
  | _, _ => ([], s)

/-- The configuration in which every option has its default. -/
def defaults (r : Rule) : RuleSettings where
  level := r.level
  options := r.options.map fun spec => (spec.name, spec.default)

end Rule

namespace Check

/-- A check of tokens that does not use the session. -/
def eachToken (f : RuleSettings → TokenView → List Problem) : Check :=
  .tokens fun c t s => (f c t, s)

def eachComment (f : RuleSettings → Comment → List Problem) : Check :=
  .comments fun c x s => (f c x, s)

/-- A check of nodes that leaves the session as it is. -/
def eachNode (f : Session → NodeVisit → List Problem) : Check :=
  .nodes fun _ v s => (f s v, s)

def eachLine (f : RuleSettings → Line → List Problem) : Check :=
  .lines fun c l s => (f c l, s)

end Check

namespace NodeVisit

/-- Whether the node is the value of one of the top-level sections. -/
def isSection (v : NodeVisit) (names : List String) : Bool :=
  v.key?.any names.contains && v.depth == 1

end NodeVisit

/-- A problem of a line as a whole. -/
def Problem.onLine (rule : String) (line : Nat) (message : String) : Problem where
  line
  column := none
  rule
  message

end Blueprint
