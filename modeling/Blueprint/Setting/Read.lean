import Blueprint.Number.Decimal
import Blueprint.Setting.Draft
import Blueprint.Setting.Value

/-!
Reading a settings text as a value. A scalar without quotes is null, a boolean or a number where it
looks like one. Equal keys in one mapping, collections nested too deeply and aliases followed too
often are refused.
-/

namespace Blueprint

open Yaml (ScalarStyle Uri)

namespace Setting

/-- What a plain scalar may be read as; `tooLarge` is a whole number beyond 64 bits. -/
inductive PlainNumber where
  | whole (i : Int)
  | tooLarge
  | none

/-- Zero followed by further digits is not a number. -/
def isPaddedDigits (s : List Char) : Bool :=
  let digits :=
    match s with
    | '-' :: r => r
    | '+' :: r => r
    | r => r
  1 < digits.length && digits.head? == some '0' && digits.all Char.isDigit

def based? (s : List Char) : Option Nat :=
  match s with
  | '0' :: 'x' :: r => Number.natural? 16 r
  | '0' :: 'o' :: r => Number.natural? 8 r
  | '0' :: 'b' :: r => Number.natural? 2 r
  | _ => none

/-- A whole number of any size: decimal without padding, or in base 16, 8 or 2. -/
def whole? (s : List Char) : Option Int :=
  let magnitude? (digits : List Char) : Option Nat :=
    (based? digits).or (if isPaddedDigits s then none else Number.natural? 10 digits)
  match s with
  | '-' :: r => (magnitude? r).map fun n => -(n : Int)
  | '+' :: r => (magnitude? r).map Int.ofNat
  | r => (magnitude? r).map Int.ofNat

/-- A number that fits in 64 bits, with a sign below zero and without one otherwise. -/
def fits (bits : Nat) (i : Int) : Bool :=
  if 0 ≤ i then i < (Nat.pow 2 bits : Int) else Number.inSigned bits i

def plainNumber (s : List Char) : PlainNumber :=
  match whole? s with
  | some i =>
    if fits 64 i then .whole i else if fits 128 i then .tooLarge else .none
  | none => .none

def special? (s : String) : Option Number.Double :=
  let unsigned := if s.startsWith "+" then String.ofList (s.toList.drop 1) else s
  if unsigned ∈ [".inf", ".Inf", ".INF"] then some (.infinite false)
  else if s ∈ ["-.inf", "-.Inf", "-.INF"] then some (.infinite true)
  else if s ∈ [".nan", ".NaN", ".NAN"] then some .notANumber
  else none

/-- A number with a fraction or an exponent. -/
def fractional? (s : String) : Option Number.Double :=
  match s.toList with
  | '+' :: '+' :: _ | '+' :: '-' :: _ => none
  | chars => (special? s).or ((Number.decimal? chars).filter Number.Double.isFinite)

def isNullWord (s : String) : Bool :=
  s = "~" || s = "null" || s = "Null" || s = "NULL"

def boolWord? (s : String) : Option Bool :=
  if s ∈ ["true", "True", "TRUE"] then some true
  else if s ∈ ["false", "False", "FALSE"] then some false
  else none

/-- The value of a scalar without quotes, unless its number is too large. -/
def ofPlain? (s : String) : Option Setting :=
  if s = "" || isNullWord s then some null
  else
    match boolWord? s with
    | some b => some (bool b)
    | none =>
      match plainNumber s.toList with
      | .whole i => some (int i)
      | .tooLarge => none
      | .none =>
        if isPaddedDigits s.toList then some (text s)
        else
          match fractional? s with
          | some x => some (float x)
          | none => some (text s)

/-- The value of a scalar under a tag that is not local; four tags demand a kind of value. -/
def ofTagged? (tag s : String) : Option Setting :=
  if tag = "tag:yaml.org,2002:bool" then (boolWord? s).map bool
  else if tag = "tag:yaml.org,2002:int" then
    match plainNumber s.toList with
    | .whole i => some (int i)
    | _ => none
  else if tag = "tag:yaml.org,2002:float" then (fractional? s).map float
  else if tag = "tag:yaml.org,2002:null" then if isNullWord s then some null else none
  else some (text s)

def dropMark (name : String) : String :=
  match name.toList with
  | ['!'] => name
  | '!' :: r => String.ofList r
  | _ => name

/-- Whether a tag is local: one that starts with an exclamation mark. -/
def isLocal (tag : Uri) : Bool :=
  tag.text.startsWith "!"

/-- The name of a local tag that can be read. -/
def localName? (tag : Option Uri) : Option String :=
  (tag.filter fun t => isLocal t && !t.broken).map fun t => dropMark (dropMark t.text)

def underTag (tag : Option Uri) (v : Setting) : Setting :=
  match localName? tag with
  | some name => tagged name v
  | none => v

end Setting

namespace Draft

/-- What reads a draft: it counts the aliases that may still be followed. -/
abbrev Reading := StateT Nat Option

def refuse {α : Type} : Reading α :=
  fun _ => none

/-- The node that an alias stands for; other nodes stand for themselves. -/
def follow (target? : Nat → Option Draft) : Draft → Reading Draft
  | .alias number => fun jumps =>
    match jumps with
    | 0 => none
    | jumps + 1 => (target? number).map fun d => (d, jumps)
  | d => pure d

/-- A local tag that cannot be read tells nothing of a scalar. -/
def scalarSetting? (text : String) (style : ScalarStyle) (tag : Option Uri) : Option Setting :=
  let untagged? := if style = .plain then Setting.ofPlain? text else some (.text text)
  match Setting.localName? tag, tag with
  | some name, _ => untagged?.map (.tagged name)
  | none, some t => if Setting.isLocal t then untagged? else Setting.ofTagged? t.text text
  | none, none => untagged?

/-- Reads the entries of a mapping with distinct keys. -/
def readEntries (read : Draft → Reading Setting) (done : Setting.Entries) :
    List (Draft × Draft) → Reading Setting.Entries
  | [] => pure done.reverse
  | (k, v) :: r => do
    let key ← read k
    if (Setting.Entries.get? done key).isSome then refuse
    let value ← read v
    readEntries read ((key, value) :: done) r

/-- The value of a node with at most `depth` collections inside each other. -/
def setting (target? : Nat → Option Draft) (depth : Nat) (d : Draft) : Reading Setting := do
  match ← d.follow target? with
  | .scalar text style tag => StateT.lift (scalarSetting? text style tag)
  | .list items tag =>
    match depth with
    | 0 => refuse
    | depth + 1 => return Setting.underTag tag (.list (← items.mapM (setting target? depth)))
  | .mapping entries tag =>
    match depth with
    | 0 => refuse
    | depth + 1 =>
      return Setting.underTag tag (.mapping (← readEntries (setting target? depth) [] entries))
  | .alias _ => refuse

end Draft

namespace DraftDocument

/-- Collections may be nested this deeply. -/
def depthLimit : Nat := 128

def isEmptyPlain : Draft → Bool
  | .scalar text style _ => text = "" && style = .plain
  | _ => false

end DraftDocument

namespace Setting

/-- The value of a text with one document. A text without a document is null. -/
def ofText? (text : String) : Option Setting := do
  let document ← DraftDocument.ofText? text
  match document.root with
  | none => some null
  | some root =>
    let (value, _) ← (root.setting document.target? DraftDocument.depthLimit).run document.jumps
    some value

end Setting

end Blueprint
