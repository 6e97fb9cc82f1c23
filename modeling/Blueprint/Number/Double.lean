/-!
Binary floating-point numbers of 64 bits as exact values. Reading a decimal rounds to the nearest
number, a tie to the even significand.
-/

namespace Blueprint.Number

/-- A finite number is `significand * 2 ^ exponent`; the significand has 53 bits, or fewer at the
least exponent. -/
inductive Double where
  | finite (negative : Bool) (significand : Nat) (exponent : Int)
  | infinite (negative : Bool)
  | notANumber
deriving DecidableEq, Inhabited

namespace Double

def leastExponent : Int := -1074
def greatestExponent : Int := 971

/-- The quotient rounded to the nearest natural number, a tie to the even one. -/
def roundQuotient (num den : Nat) : Nat :=
  let q := num / den
  let twice := 2 * (num % den)
  if twice < den then q else if den < twice then q + 1 else if q % 2 = 0 then q else q + 1

/-- `num / den` in units of `2 ^ e`, as a fraction. -/
def scaled (num den : Nat) (e : Int) : Nat × Nat :=
  if 0 ≤ e then (num, den * Nat.pow 2 e.toNat) else (num * Nat.pow 2 (-e).toNat, den)

/-- The number nearest to a positive fraction. -/
def ofFraction (negative : Bool) (num den : Nat) : Double :=
  let guess := max leastExponent ((num.log2 : Int) - den.log2 - 53)
  let (n, d) := scaled num den guess
  let exponent := if n / d < Nat.pow 2 53 then guess else guess + 1
  let (n, d) := scaled num den exponent
  let significand := roundQuotient n d
  let (significand, exponent) :=
    if significand = Nat.pow 2 53 then (Nat.pow 2 52, exponent + 1) else (significand, exponent)
  if greatestExponent < exponent then infinite negative
  else finite negative significand exponent

/-- The number nearest to `digits * 10 ^ power`, where `digits` is written with `count` digits. -/
def ofDecimal (negative : Bool) (digits count : Nat) (power : Int) : Double :=
  if digits = 0 then finite negative 0 leastExponent
  else if 400 < power + count then infinite negative
  else if power + count < -400 then finite negative 0 leastExponent
  else if 0 ≤ power then ofFraction negative (digits * Nat.pow 10 power.toNat) 1
  else ofFraction negative digits (Nat.pow 10 (-power).toNat)

def isFinite : Double → Bool
  | finite .. => true
  | _ => false

/-- Equality of numbers: both zeros are equal, and so is a text that is not a number to itself. -/
def same (a b : Double) : Bool :=
  match a, b with
  | finite _ 0 _, finite _ 0 _ => true
  | _, _ => a == b

end Double

end Blueprint.Number
