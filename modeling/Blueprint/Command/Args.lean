import Blueprint.Fix.Selection
import Blueprint.Report.Format

/-!
The words of a command line. Options may stand anywhere among the files; after `--` every word names
a file.
-/

namespace Blueprint

/-- Why a command line is not carried out. -/
inductive UsageFault where
  | noFiles
  | badValue
  | unknownOption
  /-- An option is repeated, or two options exclude each other. -/
  | conflict
  | valueOfFlag
  | help
  | version
deriving DecidableEq

namespace UsageFault

def usage : String :=
  "Usage: [OPTIONS] FILES...\n\n"
    ++ "  -c, --config FILE            the configuration of the rules\n"
    ++ "  -f, --format FORMAT          the form of the report: human or json\n"
    ++ "      --fix RULE=LINE          repair the problems of a rule on a line\n"
    ++ "  -a, --autofix                repair all problems that can be repaired\n"
    ++ "      --fix-only               repair, and report only what remains\n"
    ++ "      --skip-suggestions RULE  leave suggestions out of the messages of a rule\n"
    ++ "  -v, --verbose\n"
    ++ "      --debug\n"
    ++ "  -h, --help\n"
    ++ "  -V, --version"

def message : UsageFault → String
  | noFiles => "no files are given"
  | badValue => "a value is missing or not allowed"
  | unknownOption => "there is no such option"
  | conflict => "options are repeated or exclude each other"
  | valueOfFlag => "a flag takes no value"
  | help => usage
  | version => "0.4.0"

/-- Whether the command line only asks for information. -/
def isRequest (f : UsageFault) : Bool :=
  f == help || f == version

end UsageFault

/-- What takes values. -/
inductive Slot where
  | files
  | config
  | format
  | fix
  | quiet
deriving DecidableEq

inductive Flag where
  | autofix
  | fixOnly
  | verbose
  | debug
  | help
  | version
deriving DecidableEq

inductive Switch where
  | slot (s : Slot)
  | flag (f : Flag)
deriving DecidableEq

namespace Switch

def ofName? (name : String) : Option Switch :=
  match name with
  | "config" => some (.slot .config)
  | "format" => some (.slot .format)
  | "fix" => some (.slot .fix)
  | "skip-suggestions" => some (.slot .quiet)
  | "autofix" => some (.flag .autofix)
  | "fix-only" => some (.flag .fixOnly)
  | "verbose" => some (.flag .verbose)
  | "debug" => some (.flag .debug)
  | "help" => some (.flag .help)
  | "version" => some (.flag .version)
  | _ => none

def ofLetter? (letter : Char) : Option Switch :=
  match letter with
  | 'c' => some (.slot .config)
  | 'f' => some (.slot .format)
  | 'a' => some (.flag .autofix)
  | 'v' => some (.flag .verbose)
  | 'h' => some (.flag .help)
  | 'V' => some (.flag .version)
  | _ => none

end Switch

/-- What a command line asks for. -/
structure Args where
  files : List String := []
  config : Option String := none
  format : Option ReportFormat := none
  /-- The selections of problems to repair. -/
  fix : List String := []
  /-- Whether to repair all that can be repaired. -/
  autofix : Bool := false
  /-- Whether to repair and report only what remains. -/
  fixOnly : Bool := false
  /-- The rules that make no suggestions. -/
  quiet : List String := []
  verbose : Bool := false
  debug : Bool := false
deriving DecidableEq

namespace Args

/-- Gives a slot its values. The configuration and the format can be given once. -/
def fill (a : Args) (slot : Slot) (values : List String) : Except UsageFault Args :=
  match values with
  | [] => .error .badValue
  | value :: _ =>
    match slot with
    | .files =>
      if values.contains "" then .error .badValue else .ok { a with files := a.files ++ values }
    | .config =>
      if a.config.isSome then .error .conflict
      else if value = "" then .error .badValue
      else .ok { a with config := some value }
    | .format =>
      if a.format.isSome then .error .conflict
      else
        match ReportFormat.ofName? value with
        | some format => .ok { a with format := some format }
        | none => .error .badValue
    | .fix => .ok { a with fix := a.fix ++ values }
    | .quiet =>
      let names := values.flatMap fun v => (Text.pieces ',' v.toList).map String.ofList
      .ok { a with quiet := a.quiet ++ names }

/-- Sets a flag that is not set yet. -/
def raise (a : Args) (flag : Flag) : Except UsageFault Args :=
  match flag with
  | .autofix => if a.autofix then .error .conflict else .ok { a with autofix := true }
  | .fixOnly => if a.fixOnly then .error .conflict else .ok { a with fixOnly := true }
  | .verbose => if a.verbose then .error .conflict else .ok { a with verbose := true }
  | .debug => if a.debug then .error .conflict else .ok { a with debug := true }
  | .help => .error .help
  | .version => .error .version

/-- What has been read, and the slot whose values are still being read. -/
structure Reading where
  args : Args := {}
  pending : Option (Slot × List String) := none

namespace Reading

/-- Takes over the values of the pending slot. -/
def settle (r : Reading) : Except UsageFault Args :=
  match r.pending with
  | some (slot, values) => r.args.fill slot values
  | none => .ok r.args

def raise (r : Reading) (flag : Flag) : Except UsageFault Reading := do
  return { args := ← (← r.settle).raise flag }

/-- Fills a slot with the value beside it, or with the next word. -/
def take (r : Reading) (slot : Slot) (beside : Option (List Char)) : Except UsageFault Reading := do
  let args ← r.settle
  match beside with
  | some value => return { args := ← args.fill slot [String.ofList value] }
  | none => return { args, pending := some (slot, []) }

/-- Reads an option by its name. -/
def long (r : Reading) (text : List Char) : Except UsageFault Reading :=
  let (name, beside) :=
    match Text.cutAt? '=' text with
    | some (name, value) => (name, some value)
    | none => (text, none)
  match Switch.ofName? (String.ofList name), beside with
  | none, _ => .error .unknownOption
  | some (.slot slot), _ => r.take slot beside
  | some (.flag _), some _ => .error .valueOfFlag
  | some (.flag flag), none => r.raise flag

/-- The value after an option's letter, with or without an equals sign. -/
def besideLetter : List Char → Option (List Char)
  | [] => none
  | '=' :: r => some r
  | r => some r

/-- Reads options by their letters. -/
def short (r : Reading) : List Char → Except UsageFault Reading
  | [] => .ok r
  | c :: rest =>
    match Switch.ofLetter? c with
    | none => .error .unknownOption
    | some (.flag flag) => do short (← r.raise flag) rest
    | some (.slot slot) => r.take slot (besideLetter rest)

def file (r : Reading) (word : String) : Except UsageFault Reading := do
  match r.pending with
  | some (.files, values) => return { r with pending := some (.files, values ++ [word]) }
  | _ => return { args := ← r.settle, pending := some (.files, [word]) }

/-- Reads a word that is no option: the value that an option waits for, or a file. -/
def plain (r : Reading) (word : String) : Except UsageFault Reading :=
  match r.pending with
  | some (slot, []) => .ok { r with pending := some (slot, [word]) }
  | _ => r.file word

def word (r : Reading) (word : String) : Except UsageFault Reading :=
  match word.toList with
  | '-' :: '-' :: text => r.long text
  | '-' :: c :: text => r.short (c :: text)
  | _ => r.plain word

def words (r : Reading) : List String → Except UsageFault Reading
  | [] => .ok r
  | w :: rest => if w = "--" then rest.foldlM file r else do words (← r.word w) rest

end Reading

/-- Reads the words of a command line. -/
def ofWords (words : List String) : Except UsageFault Args := do
  let args ← (← Reading.words {} words).settle
  if args.autofix && !args.fix.isEmpty then throw .conflict
  if args.files.isEmpty then throw .noFiles
  return args

/-- The problems to repair, if any are to be. -/
def selection (a : Args) : Except LintFailure (Option Selection) :=
  if a.autofix || (a.fixOnly && a.fix.isEmpty) then .ok (some .all)
  else if a.fix.isEmpty then .ok none
  else (Selection.ofTexts (a.fix.flatMap Selection.splitText)).map some

end Args

end Blueprint
