import Blueprint.Number.Integer
import Blueprint.Number.Shortest

/-!
Values of settings: scalars, lists, mappings in their order of insertion, and values under a local
tag. `Setting.same` compares mappings without regard to order.
-/

namespace Blueprint

open Number (Double)

inductive Setting where
  | null
  | bool (b : Bool)
  | int (i : Int)
  | float (x : Double)
  | text (s : String)
  | list (items : List Setting)
  | mapping (entries : List (Setting × Setting))
  /-- A value under the tag `!name`. -/
  | tagged (name : String) (value : Setting)

namespace Setting

instance : Inhabited Setting := ⟨null⟩

abbrev Entries := List (Setting × Setting)

mutual

def same : Setting → Setting → Bool
  | null, null => true
  | bool a, bool b => a == b
  | int a, int b => a == b
  | float a, float b => a.same b
  | text a, text b => a == b
  | list a, list b => sameItems a b
  | mapping a, mapping b => a.length == b.length && holdsAll b a
  | tagged s a, tagged t b => s == t && same a b
  | _, _ => false

def sameItems : List Setting → List Setting → Bool
  | [], [] => true
  | a :: r, b :: s => same a b && sameItems r s
  | _, _ => false

/-- Whether each of the second entries has an equal one among `entries`. -/
def holdsAll (entries : Entries) : Entries → Bool
  | [] => true
  | (k, v) :: r => entries.any (fun e => same k e.1 && same v e.2) && holdsAll entries r

end

/-- The value without its tags. -/
def untagged : Setting → Setting
  | tagged _ v => v.untagged
  | v => v

def isNull (v : Setting) : Bool :=
  match v.untagged with
  | null => true
  | _ => false

def bool? (v : Setting) : Option Bool :=
  match v.untagged with
  | bool b => some b
  | _ => none

def text? (v : Setting) : Option String :=
  match v.untagged with
  | text s => some s
  | _ => none

/-- An integer of 64 bits with a sign. -/
def int64? (v : Setting) : Option Int :=
  match v.untagged with
  | int i => if Number.inSigned 64 i then some i else none
  | _ => none

def items? (v : Setting) : Option (List Setting) :=
  match v.untagged with
  | list items => some items
  | _ => none

def entries? (v : Setting) : Option Entries :=
  match v.untagged with
  | mapping entries => some entries
  | _ => none

namespace Entries

def get? (e : Entries) (key : Setting) : Option Setting :=
  (e.find? fun (k, _) => key.same k).map (·.2)

/-- Replaces the value of a key in its place, or adds an entry at the end. -/
def insert (key value : Setting) : Entries → Entries
  | [] => [(key, value)]
  | (k, v) :: r => if key.same k then (k, value) :: r else (k, v) :: insert key value r

/-- Takes out a key; the last entry moves into its place. -/
def erase (key : Setting) : Entries → Entries
  | [] => []
  | (k, v) :: r =>
    if key.same k then
      match r.getLast? with
      | some last => last :: r.dropLast
      | none => []
    else (k, v) :: erase key r

end Entries

/-- The value under a text key. -/
def get? (v : Setting) (key : String) : Option Setting :=
  v.entries?.bind fun e => Entries.get? e (.text key)

/-- Settings write numbers in scientific form without a plus sign. -/
def numberLayout : Number.NumberLayout where
  exponentPlus := ""
  infinity := ".inf"
  negativeInfinity := "-.inf"
  notANumber := ".nan"

end Setting

end Blueprint
