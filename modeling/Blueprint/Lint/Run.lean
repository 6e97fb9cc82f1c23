import Blueprint.Config
import Blueprint.Document.Compose
import Blueprint.Lint.Directives

/-!
One run over one document. Each element is handed to the rules of its kind; the problems of a line
wait for the end of the line, so that a directive anywhere on it holds for all of it. A fault of the
YAML text is held back until the problems before it have passed.
-/

namespace Blueprint

/-- A rule with its configuration. -/
structure ActiveRule where
  rule : Rule
  conf : RuleSettings

structure Linter where
  registry : Registry
  confs : List (String × RuleSettings)
  ignore : List Glob
  /-- The rules that make no suggestions. -/
  quiet : List String := []

/-- The text fault that has not been reported yet. -/
abbrev Gate := Option Problem

namespace Gate

/-- The place of a problem; a missing column counts as column 0. -/
def place (p : Problem) : Nat × Nat :=
  (p.line, p.column.getD 0)

def placeLt (a b : Nat × Nat) : Bool :=
  a.1 < b.1 || (a.1 == b.1 && a.2 < b.2)

/-- Lets a problem pass, after the fault if that comes first. A problem at the place of the fault
gives way to it. -/
def release (g : Gate) (p : Problem) : Gate × List Problem :=
  match g with
  | none => (none, [p])
  | some fault =>
    if placeLt (place p) (place fault) then (some fault, [p])
    else if place p = place fault then (none, [fault])
    else (none, [fault, p])

def releaseAll (g : Gate) : List Problem → Gate × List Problem
  | [] => (g, [])
  | p :: r =>
    let (g, first) := g.release p
    let (g, later) := releaseAll g r
    (g, first ++ later)

end Gate

/-- The state of a run over a file: `waiting` holds the problems whose lines have not ended, in the
order in which they were reported. -/
structure Run where
  file : Option String
  session : Session
  directives : Directives
  waiting : List Problem := []
  gate : Gate := none

namespace Run

/-- Hands something to each rule in turn. Problems get the name and the level of their rule and the
file of the run. -/
def eachRule (file : Option String) (f : ActiveRule → Session → Findings) (s : Session) :
    List ActiveRule → Findings
  | [] => ([], s)
  | a :: r =>
    let (problems, s) := f a s
    let (later, s) := eachRule file f s r
    (problems.map (fun p => { p with rule := a.rule.name, level := a.conf.level, file }) ++ later,
      s)

/-- Takes the problems that `due` selects, by place; at one place they keep their order. -/
def take (due : Problem → Bool) (waiting : List Problem) : List Problem × List Problem :=
  (sortBy Problem.placeBefore (waiting.filter due), waiting.filter (!due ·))

/-- Ends a line: its problems pass unless their rule is off on it. Problems of earlier lines obey
what held when those lines ended. -/
def endLine (r : Run) (line : Nat) : Run × List Problem :=
  let (due, waiting) := take (·.line ≤ line) r.waiting
  let withheld (p : Problem) : Bool :=
    if p.line = line then r.directives.isOff p.rule
    else r.directives.wasOff p.line p.rule
  let (gate, passed) := r.gate.releaseAll (due.filter (!withheld ·))
  ({ r with waiting, gate, directives := r.directives.endLine line }, passed)

/-- Follows an element in the session before the rules see it. -/
def observe (s : Session) : Element → Session
  | .token t => s.withContext (s.context.update t)
  | _ => s

/-- Hands an element to the rules of its kind, then obeys it if it is a directive or ends a line. -/
def step (active : List ActiveRule) (r : Run) (e : Element) : Run × List Problem :=
  let (problems, session) :=
    eachRule r.file (fun a s => a.rule.run a.conf e s) (observe r.session e)
      (active.filter (·.rule.kind == e.kind))
  let r := { r with session, waiting := r.waiting ++ problems }
  match e with
  | .comment c => ({ r with directives := r.directives.readComment c.text c.inline }, [])
  | .line l => r.endLine l.number
  | _ => (r, [])

def steps (active : List ActiveRule) (r : Run) : List Element → Run × List Problem
  | [] => (r, [])
  | e :: rest =>
    let (r, problems) := step active r e
    let (r, later) := steps active r rest
    (r, problems ++ later)

/-- Lets every rule report what the whole document shows, and all waiting problems pass. -/
def finish (active : List ActiveRule) (r : Run) : List Problem :=
  let (problems, _) :=
    eachRule r.file (fun a s => a.rule.finish a.conf s) r.session active
  let (due, _) := take (fun _ => true) (r.waiting ++ problems)
  let kept := due.filter fun p => !r.directives.wasOff p.line p.rule
  let (gate, passed) := r.gate.releaseAll kept
  passed ++ gate.toList

end Run

/-- What a run yields: nothing for a file that is passed over, otherwise the problems found while
reading and those found at the end. -/
inductive Outcome where
  | skipped
  | finished (scanned atEnd : List Problem)

def Outcome.problems : Outcome → List Problem
  | skipped => []
  | finished scanned atEnd => scanned ++ atEnd

/-- The problem that stands for a fault of the text. -/
def Problem.ofFault (e : Yaml.ScanError) : Problem where
  line := e.mark.line
  column := some (e.mark.column + 1)
  rule := Problem.textRule
  message := "syntax error: " ++ e.fault.message ++ " (syntax)"

/-- The fault of a text, if it has one. -/
def textFault? (text : String) : Option Problem :=
  match Node.compose (Source.ofText text) text.toList with
  | .error e => some (.ofFault e)
  | .ok _ => none

namespace Linter

/-- A linter with the rules of a registry that a configuration enables. -/
def ofConfig (g : Registry) (c : Config) : Except LintFailure Linter := do
  return { registry := g, confs := ← c.resolve g, ignore := c.ignore }

def withQuiet (l : Linter) (quiet : List String) : Linter :=
  { l with quiet }

def ignores (l : Linter) (path : String) : Bool :=
  l.ignore.any (·.covers path)

/-- The enabled rules that do not pass over the file. -/
def rulesFor (l : Linter) (file : Option String) : List ActiveRule :=
  l.registry.rules.filterMap fun rule =>
    ((l.confs.lookup rule.name).filter fun c => !file.any c.ignores).map fun conf => ⟨rule, conf⟩

def firstLine (text : List Char) : List Char :=
  (Text.lines text).headD []

/-- Lints a text that stands in a file, among other files. -/
def run (l : Linter) (fs : Files) (text : String) (file : Option String) : Outcome :=
  let chars := text.toList
  if file.any l.ignores || Directive.coversFile (firstLine chars) then .skipped
  else
    let active := l.rulesFor file
    let source := Source.ofList chars
    let composed := Node.compose source chars
    let root := composed.toOption.join
    let session : Session := { file, quiet := l.quiet, files := fs }
    let start : Run :=
      { file
        session := (root.map session.index).getD session
        directives := { rules := active.map (·.rule.name) }
        gate :=
          match composed with
          | .error e => some (.ofFault e)
          | .ok _ => none }
    let (r, scanned) := Run.steps active start (Element.ofText source chars root)
    .finished scanned (r.finish active)

end Linter

end Blueprint
