import Blueprint.Error
import Blueprint.Lint.Registry
import Blueprint.Setting.Merge
import Blueprint.Setting.Read

/-!
Configurations. An entry for a rule is `enable`, `disable` or a mapping of options; entries are
layered over the defaults of the rules, and every value is checked before anything is linted.
-/

namespace Blueprint

/-- The fields of a configuration text. -/
structure ConfigFields where
  rules : Setting.Entries := []
  ignore : List String := []
  extending : Option String := none

namespace ConfigFields

open Draft (Reading)

/-- The text of a scalar, however it is written. -/
def readText (target? : Nat → Option Draft) (d : Draft) : Reading String := do
  match ← d.follow target? with
  | .scalar text _ _ => pure text
  | _ => Draft.refuse

/-- A list of texts; nothing at all is an empty list. -/
def readTexts (target? : Nat → Option Draft) (d : Draft) : Reading (List String) := do
  match ← d.follow target? with
  | .list items _ => items.mapM (readText target?)
  | d => if DraftDocument.isEmptyPlain d then pure [] else Draft.refuse

/-- A mapping; nothing at all is an empty one. -/
def readMapping (target? : Nat → Option Draft) (d : Draft) : Reading Setting.Entries := do
  match ← d.follow target? with
  | .mapping entries _ =>
    Draft.readEntries (Draft.setting target? (DraftDocument.depthLimit - 2)) [] entries
  | d => if DraftDocument.isEmptyPlain d then pure [] else Draft.refuse

/-- A text that may be absent or null. -/
def readOptional (target? : Nat → Option Draft) (d : Draft) : Reading (Option String) := do
  match ← d.follow target? with
  | .scalar text style tag =>
    if style ≠ .plain then pure (some text)
    else
      match tag with
      | some tag =>
        if tag.text ≠ "tag:yaml.org,2002:null" then pure (some text)
        else if Setting.isNullWord text then pure none
        else Draft.refuse
      | none => pure (if text = "" || Setting.isNullWord text then none else some text)
  | _ => Draft.refuse

/-- Reads the fields; each is known and occurs once. -/
def readFields (target? : Nat → Option Draft) (known : List String) (f : ConfigFields) :
    List (Draft × Draft) → Reading ConfigFields
  | [] => pure f
  | (k, v) :: r => do
    let key ← readText target? k
    if known.contains key then Draft.refuse
    let f ←
      if key = "rules" then do pure { f with rules := ← readMapping target? v }
      else if key = "ignore" then do pure { f with ignore := ← readTexts target? v }
      else if key = "extends" then do pure { f with extending := ← readOptional target? v }
      else Draft.refuse
    readFields target? (key :: known) f r

def ofText? (text : String) : Option ConfigFields := do
  if text.toList.all Text.isBlank then return {}
  let document ← DraftDocument.ofText? text
  match document.root with
  | none => return {}
  | some root =>
    let read : Reading ConfigFields := do
      match ← root.follow document.target? with
      | .mapping entries _ => readFields document.target? [] {} entries
      | d => if DraftDocument.isEmptyPlain d then pure {} else Draft.refuse
    (read.run document.jumps).map (·.1)

end ConfigFields

/-- A configuration: the files that are not linted, and one mapping for each rule that it names. -/
structure Config where
  ignore : List Glob := []
  rules : Setting.Entries := []

namespace Config

/-- The keys of an entry that are no options. -/
def enabledKey : String := "enabled"
def levelKey : String := "level"
def ignoreKey : String := "ignore"

def readPattern (text : String) : Except LintFailure Glob :=
  match Glob.ofText text with
  | .ok g => .ok g
  | .error fault => .error (.config (.pattern text fault))

/-- The entry of a rule as a mapping that tells whether the rule is enabled. -/
def readEntry (rule : String) (v : Setting) : Except LintFailure Setting :=
  let enabled (entries : Setting.Entries) : Setting :=
    .mapping
      (if (Setting.Entries.get? entries (.text enabledKey)).isSome then entries
        else entries ++ [(.text enabledKey, .bool true)])
  match v with
  | .text s =>
    if s = "enable" then .ok (enabled [])
    else if s = "disable" then .ok (.mapping [(.text enabledKey, .bool false)])
    else .error (.config (.ruleEntry rule))
  | .mapping entries => .ok (enabled entries)
  | _ => .error (.config (.ruleEntry rule))

def readRules : Setting.Entries → Except LintFailure Setting.Entries
  | [] => .ok []
  | (k, v) :: r => do
    match k.text? with
    | none => throw (.config .ruleName)
    | some rule =>
      let entry ← readEntry rule v
      return (k, entry) :: (← readRules r)

def ofText (text : String) : Except LintFailure Config := do
  match ConfigFields.ofText? text with
  | none => throw .settings
  | some fields =>
    match fields.extending with
    | some found => throw (.config (.extending found))
    | none =>
      let ignore ← fields.ignore.mapM readPattern
      return ⟨ignore, ← readRules fields.rules⟩

/-- Reads the configuration in a file. -/
def load (fs : Files) (path : String) : Except LintFailure Config :=
  if !fs.exists? path then .error (.fileNotFound path)
  else
    match fs.read? path with
    | some text => ofText text
    | none => .error .file

def ignores (c : Config) (path : String) : Bool :=
  c.ignore.any (·.covers path)

/-- The default entry of a rule. -/
def defaultEntry (r : Rule) : Setting :=
  .mapping
    (r.options.foldl
      (fun entries spec => Setting.Entries.insert (.text spec.name) spec.default.setting entries)
      [(.text enabledKey, .bool r.enabled), (.text levelKey, .text r.level.name)])

def defaultEntries (g : Registry) : Setting.Entries :=
  g.rules.map fun r => (.text r.name, defaultEntry r)

def readLevel (v : Setting) : Except OptionFault Level :=
  match v.text? with
  | none => .error .notLevel
  | some name =>
    match Level.ofName? name with
    | some level => .ok level
    | none => .error (.unknownLevel name)

/-- The patterns of a rule's entry: the lines of a text, or a list. -/
def patternTexts (v : Setting) : Except OptionFault (List String) :=
  match v with
  | .text s =>
    .ok (((Text.lines s.toList).filter fun line => !line.all Text.isBlank).map String.ofList)
  | .list items =>
    match items.mapM Setting.text? with
    | some texts => .ok texts
    | none => .error .notPatterns
  | _ => .error .notPatterns

def onOption {α : Type} (rule name : String) (e : Except OptionFault α) : Except LintFailure α :=
  match e with
  | .ok a => .ok a
  | .error fault => .error (.option rule name fault)

/-- Takes over one field of a rule's entry. -/
def applyField (r : Rule) (c : RuleSettings) (key : String) (v : Setting) :
    Except LintFailure RuleSettings :=
  if key = enabledKey then .ok c
  else if key = levelKey then do
    return { c with level := ← onOption r.name key (readLevel v) }
  else if key = ignoreKey then do
    let texts ← onOption r.name key (patternTexts v)
    return { c with ignore := ← texts.mapM readPattern }
  else
    match r.options.find? (·.name == key) with
    | some spec => do return c.set key (← onOption r.name key (spec.read v))
    | none => .error (.option r.name key .unknown)

def applyFields (r : Rule) (c : RuleSettings) : Setting.Entries → Except LintFailure RuleSettings
  | [] => .ok c
  | (k, v) :: rest => do
    let c ← applyField r c (k.text?.getD "") v
    applyFields r c rest

/-- Whether an entry leaves its rule enabled. -/
def isEnabled (entry : Setting.Entries) : Bool :=
  ((Setting.Entries.get? entry (.text enabledKey)).bind Setting.bool?).getD true

/-- The configuration of a rule, if it is enabled. -/
def resolveRule (merged : Setting) (r : Rule) : Except LintFailure (Option RuleSettings) :=
  match (merged.get? r.name).bind Setting.entries? with
  | none => .ok none
  | some entry => if isEnabled entry then (applyFields r r.defaults entry).map some else .ok none

def resolveRules (merged : Setting) : List Rule → Except LintFailure (List (String × RuleSettings))
  | [] => .ok []
  | r :: rest => do
    let conf ← resolveRule merged r
    let later ← resolveRules merged rest
    return (conf.map fun c => (r.name, c)).toList ++ later

/-- The names of the rules in a configuration. -/
def ruleNames (c : Config) : List String :=
  c.rules.map fun (k, _) => k.text?.getD ""

/-- The configurations of the enabled rules of a registry. -/
def resolve (c : Config) (g : Registry) : Except LintFailure (List (String × RuleSettings)) :=
  match c.ruleNames.find? fun name => (g.get? name).isNone with
  | some name => .error (.unknownRule name)
  | none => resolveRules (.merge (.mapping (defaultEntries g)) (.mapping c.rules)) g.rules

end Config

end Blueprint
