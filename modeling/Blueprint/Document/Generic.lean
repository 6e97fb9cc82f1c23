import Blueprint.Number.Decimal
import Blueprint.Number.Shortest
import Blueprint.Table

/-!
Values without position or style, and their compact text with sorted keys.
-/

namespace Blueprint

open Number (Double)

inductive Generic where
  | null
  | bool (b : Bool)
  | int (i : Int)
  | float (x : Double)
  | text (s : String)
  | list (items : List Generic)
  | dict (fields : List (String × Generic))

namespace Generic

instance : Inhabited Generic := ⟨null⟩

/-- Values are written in scientific form with the sign of the exponent. -/
def numberLayout : Number.NumberLayout where
  exponentPlus := "+"
  infinity := "null"
  negativeInfinity := "null"
  notANumber := "null"

def hexDigit (n : Nat) : Char :=
  if n < 10 then Char.ofNat (n + '0'.toNat) else Char.ofNat (n - 10 + 'a'.toNat)

/-- A character between quotes: quotes, backslashes and control characters are escaped. -/
def quotedChar (c : Char) : List Char :=
  match c with
  | '"' => ['\\', '"']
  | '\\' => ['\\', '\\']
  | '\x08' => ['\\', 'b']
  | '\x0c' => ['\\', 'f']
  | '\n' => ['\\', 'n']
  | '\r' => ['\\', 'r']
  | '\t' => ['\\', 't']
  | c =>
    if c.toNat < 0x20 then
      ['\\', 'u', '0', '0', hexDigit (c.toNat / 16), hexDigit (c.toNat % 16)]
    else [c]

def quoted (s : String) : String :=
  String.ofList ('"' :: s.toList.flatMap quotedChar ++ ['"'])

mutual

/-- The compact text of a value. -/
def render : Generic → String
  | null => "null"
  | bool b => if b then "true" else "false"
  | int i => toString i
  | float x => x.text numberLayout
  | text s => quoted s
  | list items => "[" ++ ",".intercalate (renderItems items) ++ "]"
  | dict fields => "\x7b" ++ ",".intercalate (renderFields fields) ++ "\x7d"

def renderItems : List Generic → List String
  | [] => []
  | v :: r => render v :: renderItems r

def renderFields : List (String × Generic) → List String
  | [] => []
  | (k, v) :: r => (quoted k ++ ":" ++ render v) :: renderFields r

end

def isNull : Generic → Bool
  | null => true
  | _ => false

def text? : Generic → Option String
  | text s => some s
  | _ => none

def items? : Generic → Option (List Generic)
  | list items => some items
  | _ => none

/-- The value of a field. -/
def get? (v : Generic) (key : String) : Option Generic :=
  match v with
  | dict fields => fields.lookup key
  | _ => none

def isNumeric (c : Char) : Bool :=
  c.isDigit || c == '.' || c == '-' || c == '+' || c == 'e' || c == 'E'

/-- The value of a scalar written without quotes. -/
def ofPlain (s : String) : Generic :=
  if s ∈ ["", "~", "null", "Null", "NULL"] then null
  else if s ∈ ["true", "True", "TRUE"] then bool true
  else if s ∈ ["false", "False", "FALSE"] then bool false
  else
    let chars := s.toList
    let hex? :=
      match chars with
      | '0' :: 'x' :: r => Number.signed64? 16 r
      | _ => none
    match (Number.signed64? 10 chars).or hex? with
    | some i => int i
    | none =>
      if chars.all isNumeric && chars.any Char.isDigit then
        match (Number.decimal? chars).filter Double.isFinite with
        | some x => float x
        | none => text s
      else text s

end Generic

end Blueprint
