/-!
Whole numbers written in digits of a base, with an optional sign, within bounds.
-/

namespace Blueprint.Number

/-- The value of a digit of a base up to 16. -/
def digitValue? (base : Nat) (c : Char) : Option Nat :=
  let value :=
    if '0' ≤ c ∧ c ≤ '9' then some (c.toNat - '0'.toNat)
    else if 'a' ≤ c ∧ c ≤ 'f' then some (c.toNat - 'a'.toNat + 10)
    else if 'A' ≤ c ∧ c ≤ 'F' then some (c.toNat - 'A'.toNat + 10)
    else none
  value.filter (· < base)

/-- Reads `digits` after the digits whose value is `value`. -/
def readFrom? (base value : Nat) : List Char → Option Nat
  | [] => some value
  | c :: r => (digitValue? base c).bind fun d => readFrom? base (base * value + d) r

/-- The value of a text that holds one digit or more and nothing else. -/
def natural? (base : Nat) (digits : List Char) : Option Nat :=
  if digits.isEmpty then none else readFrom? base 0 digits

/-- Like `natural?`, after an optional sign. -/
def signed? (base : Nat) : List Char → Option Int
  | '-' :: r => (natural? base r).map fun n => -(n : Int)
  | '+' :: r => (natural? base r).map Int.ofNat
  | r => (natural? base r).map Int.ofNat

def natural64Limit : Nat := Nat.pow 2 64

def inSigned (bits : Nat) (i : Int) : Bool :=
  -(Nat.pow 2 (bits - 1) : Int) ≤ i && i < (Nat.pow 2 (bits - 1) : Int)

/-- A signed number of 64 bits. -/
def signed64? (base : Nat) (s : List Char) : Option Int :=
  (signed? base s).filter (inSigned 64)

/-- A number of 64 bits without a minus sign. -/
def natural64? : List Char → Option Nat
  | '+' :: r => (natural? 10 r).filter (· < natural64Limit)
  | r => (natural? 10 r).filter (· < natural64Limit)

end Blueprint.Number
