import Blueprint.Command.Args
import Blueprint.Fix.Engine
import Blueprint.Lint.Run

/-!
Carrying out a command line: every file is linted and, if asked for, repaired; one report covers all
of them. An error ends the run without a report, and what has been repaired stays.
-/

namespace Blueprint

namespace Command

/-- How a run with a report ends. -/
inductive Verdict where
  | clean
  /-- There are problems that are errors. -/
  | problems
  /-- Some file could not be repaired. -/
  | failed
deriving DecidableEq

def Verdict.exitCode : Verdict → Nat
  | clean => 0
  | problems => 1
  | failed => 2

/-- The state between two files. -/
structure Progress where
  files : Files
  problems : List Problem := []
  failed : Bool := false

namespace Progress

def add (p : Progress) (found : List Problem) : Progress :=
  { p with problems := p.problems ++ found }

def verdict (p : Progress) : Verdict :=
  if p.failed then .failed else if p.problems.any (·.isError) then .problems else .clean

end Progress

def lintPath (l : Linter) (fs : Files) (path : String) : Except LintFailure (List Problem) :=
  if !fs.exists? path then .error (.fileNotFound path)
  else
    match fs.read? path with
    | some text => .ok (l.run fs text (some path)).problems
    | none => .error (.unreadable path)

/-- Repairs a file. An indentation that cannot be derived only marks the run as failed. -/
def repairFile (selection : Selection) (p : Progress) (path : String) (found : List Problem) :
    Progress × Option LintFailure :=
  let (files, result) := Fix.repairFile p.files selection path found
  match result with
  | .ok _ => ({ p with files }, none)
  | .error (.indentation _ _) => ({ p with files, failed := true }, none)
  | .error e => ({ p with files }, some e)

/-- Lints a file, and repairs it before or after its problems are noted. -/
def lintAndRepair (l : Linter) (args : Args) (selection : Option Selection) (p : Progress)
    (path : String) : Progress × Option LintFailure :=
  match lintPath l p.files path, selection with
  | .error e, _ => (p, some e)
  | .ok found, none => (p.add found, none)
  | .ok found, some selection =>
    match repairFile selection p path found with
    | (p, some e) => (p, some e)
    | (p, none) =>
      if args.fixOnly then
        match lintPath l p.files path with
        | .ok remaining => (p.add remaining, none)
        | .error e => (p, some e)
      else (p.add found, none)

/-- Goes through the files up to an error. -/
def eachFile (l : Linter) (args : Args) (selection : Option Selection) (p : Progress) :
    List String → Progress × Option LintFailure
  | [] => (p, none)
  | path :: r =>
    match lintAndRepair l args selection p path with
    | (p, some e) => (p, some e)
    | (p, none) => eachFile l args selection p r

def configOf (fs : Files) (args : Args) : Except LintFailure Config :=
  match args.config with
  | some path => Config.load fs path
  | none => .ok {}

/-- The linter and the selection that a command line asks for. -/
def prepare (fs : Files) (args : Args) : Except LintFailure (Linter × Option Selection) := do
  let config ← configOf fs args
  let linter ← Linter.ofConfig .builtin config
  return (linter.withQuiet args.quiet, ← args.selection)

/-- Carries out a command line: the files after it, with the report and the verdict. -/
def run (fs : Files) (args : Args) : Files × Except LintFailure (String × Verdict) :=
  match prepare fs args with
  | .error e => (fs, .error e)
  | .ok (linter, selection) =>
    match eachFile linter args selection { files := fs } args.files with
    | (p, some e) => (p.files, .error e)
    | (p, none) =>
      (p.files, .ok ((args.format.getD .human).render p.problems, p.verdict))

/-- The files that a command line names. -/
def namedFiles (args : Args) : List String :=
  args.config.toList ++ args.files

/-- The paths that the imports of a document refer to. -/
def importedFiles (fs : Files) (file : String) : List String :=
  let chars := ((fs.read? file).getD "").toList
  match Node.compose (Source.ofList chars) chars with
  | .ok (some root) =>
    let session : Session := { file := some file }
    (((root.get? "imports").map Node.items).getD []).filterMap fun item =>
      item.text?.map fun text => session.resolve (ImportReference.ofText text).path
  | _ => []

end Command

end Blueprint
