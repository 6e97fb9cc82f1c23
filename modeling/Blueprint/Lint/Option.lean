import Blueprint.Lint.Level
import Blueprint.Glob
import Blueprint.Setting.Value

/-!
Options of rules: what a rule declares, which settings it accepts for them, and the values that a
run uses.
-/

namespace Blueprint

/-- The kind of an option, with its default. -/
inductive OptionForm where
  | bool (default : Bool)
  | int (default : Int)
  | text (default : String)
  /-- An integer, or one word. -/
  | intOr (keyword : String) (default : Int)
  /-- One of several words; booleans count as the words `true` and `false`. -/
  | oneOf (choices : List String) (default : String)
  | list (default : List String)

structure RuleOption where
  name : String
  kind : OptionForm

inductive OptionValue where
  | bool (b : Bool)
  | int (i : Int)
  | text (s : String)
  | list (items : List String)
deriving DecidableEq

/-- Why a setting is refused for an option. -/
inductive OptionFault where
  | notBool
  | notInt
  | notText
  | notIntOr (keyword : String)
  | notOneOf (choices : List String)
  | notList
  | notTexts
  | unknown
  | notLevel
  | unknownLevel (name : String)
  | notPatterns
deriving DecidableEq

def OptionFault.message : OptionFault → String
  | notBool => "expected a boolean"
  | notInt => "expected an integer"
  | notText => "expected a string"
  | notIntOr keyword => "expected an integer or " ++ keyword
  | notOneOf choices => "expected one of " ++ ", ".intercalate choices
  | notList => "expected a list"
  | notTexts => "expected a list of strings"
  | unknown => "unknown option"
  | notLevel => "expected warning or error"
  | unknownLevel name => Level.unknownMessage name
  | notPatterns => "expected a list of patterns"

def wordOfBool (b : Bool) : String :=
  if b then "true" else "false"

/-- The text of an item of a list option. -/
def itemText? : Setting → Option String
  | .text s => some s
  | .bool b => some (wordOfBool b)
  | .int i => some (toString i)
  | .float x => some (x.text Setting.numberLayout)
  | _ => none

namespace RuleOption

def default (spec : RuleOption) : OptionValue :=
  match spec.kind with
  | .bool b => .bool b
  | .int i | .intOr _ i => .int i
  | .text s | .oneOf _ s => .text s
  | .list items => .list items

/-- The value that a setting gives to the option. Tags are passed over only where a plain value is
asked for. -/
def read (spec : RuleOption) (v : Setting) : Except OptionFault OptionValue :=
  let demand {α : Type} (fault : OptionFault) (make : α → OptionValue) (found : Option α) :
      Except OptionFault OptionValue :=
    match found with
    | some a => .ok (make a)
    | none => .error fault
  match spec.kind with
  | .bool _ => demand .notBool .bool v.bool?
  | .int _ => demand .notInt .int v.int64?
  | .text _ => demand .notText .text v.text?
  | .intOr keyword _ =>
    match v with
    | .int _ => demand (.notIntOr keyword) .int v.int64?
    | .text s => if s = keyword then .ok (.text s) else .error (.notIntOr keyword)
    | _ => .error (.notIntOr keyword)
  | .oneOf choices _ =>
    let word :=
      match v with
      | .text s => some s
      | .bool b => some (wordOfBool b)
      | _ => none
    demand (.notOneOf choices) .text (word.filter choices.contains)
  | .list _ =>
    match v.items? with
    | some items => demand .notTexts .list (items.mapM itemText?)
    | none => .error .notList

end RuleOption

def OptionValue.setting : OptionValue → Setting
  | bool b => .bool b
  | int i => .int i
  | text s => .text s
  | list items => .list (items.map .text)

/-- The options of an enabled rule, its level, and the files that it passes over. -/
structure RuleSettings where
  level : Level
  ignore : List Glob := []
  options : List (String × OptionValue)

namespace RuleSettings

def get? (c : RuleSettings) (name : String) : Option OptionValue :=
  c.options.lookup name

/-- The value of a boolean option; false for other options. -/
def bool (c : RuleSettings) (name : String) : Bool :=
  c.get? name == some (.bool true)

/-- The value of an integer option; zero for other options. -/
def int (c : RuleSettings) (name : String) : Int :=
  match c.get? name with
  | some (.int i) => i
  | _ => 0

/-- The value of a text option; empty for other options. -/
def text (c : RuleSettings) (name : String) : String :=
  match c.get? name with
  | some (.text s) => s
  | _ => ""

/-- The value of a list option; empty for other options. -/
def list (c : RuleSettings) (name : String) : List String :=
  match c.get? name with
  | some (.list items) => items
  | _ => []

/-- Gives an option a value; options keep their places. -/
def set (c : RuleSettings) (name : String) (value : OptionValue) : RuleSettings :=
  { c with options :=
      if c.options.any (·.1 == name) then
        c.options.map fun (n, v) => if n = name then (n, value) else (n, v)
      else c.options ++ [(name, value)] }

def ignores (c : RuleSettings) (path : String) : Bool :=
  c.ignore.any (·.covers path)

end RuleSettings

end Blueprint
