import Blueprint.Number.Double

/-!
The shortest decimal digits that read back to a number, and their layout.
-/

namespace Blueprint.Number

/-- A decimal `d.ddd * 10 ^ exponent`, its digits written without the point. -/
structure Digits where
  digits : Nat
  exponent : Int

/-- The numbers that round to `significand * 2 ^ exponent`, as numerators over one denominator. -/
structure Interval where
  low : Nat
  value : Nat
  high : Nat
  den : Nat
  closed : Bool

namespace Interval

def ofDouble (significand : Nat) (exponent : Int) : Interval :=
  let narrow := significand = Nat.pow 2 52 ∧ exponent ≠ Double.leastExponent
  let low := if narrow then 4 * significand - 1 else 4 * significand - 2
  let value := 4 * significand
  let high := 4 * significand + 2
  let e := exponent - 2
  let up := if 0 ≤ e then Nat.pow 2 e.toNat else 1
  let den := if 0 ≤ e then 1 else Nat.pow 2 (-e).toNat
  ⟨low * up, value * up, high * up, den, significand % 2 = 0⟩

def holds (i : Interval) (num den : Nat) : Bool :=
  if i.closed then i.low * den ≤ num * i.den && num * i.den ≤ i.high * den
  else i.low * den < num * i.den && num * i.den < i.high * den

end Interval

/-- The number of decimal digits of `n`. -/
def digitCount (n : Nat) : Nat :=
  (Nat.toDigits 10 n).length

/-- The greatest power of ten not above the fraction, searched up from `10 ^ (-j)`. -/
def negativePower (num den : Nat) : Nat → Nat → Int
  | 0, j => -(j : Int)
  | fuel + 1, j => if den ≤ num * Nat.pow 10 j then -(j : Int) else negativePower num den fuel (j + 1)

def leadingPower (num den : Nat) : Int :=
  if den ≤ num then (digitCount (num / den) : Int) - 1 else negativePower num den 400 1

/-- `units * 10 ^ power` as a fraction. -/
def powerFraction (units : Nat) (power : Int) : Nat × Nat :=
  if 0 ≤ power then (units * Nat.pow 10 power.toNat, 1) else (units, Nat.pow 10 (-power).toNat)

def distance (a b : Nat) : Nat := (a - b) + (b - a)

/-- The multiple of `10 ^ power` nearest to the value among its two neighbours in the interval. -/
def Interval.hit? (i : Interval) (power : Int) : Option Nat :=
  let (_, unitDen) := powerFraction 1 power
  let (unitNum, _) := powerFraction 1 power
  let below := i.value * unitDen / (i.den * unitNum)
  let inside (n : Nat) : Bool :=
    let (num, den) := powerFraction n power
    n ≠ 0 && i.holds num den
  let gap (n : Nat) : Nat := distance (n * unitNum * i.den) (i.value * unitDen)
  match inside below, inside (below + 1) with
  | false, false => none
  | true, false => some below
  | false, true => some (below + 1)
  | true, true =>
    if gap below < gap (below + 1) then some below
    else if gap (below + 1) < gap below then some (below + 1)
    else if below % 2 = 0 then some below else some (below + 1)

def dropTrailingZeros : Nat → Nat → Nat
  | 0, n => n
  | fuel + 1, n => if n ≠ 0 ∧ n % 10 = 0 then dropTrailingZeros fuel (n / 10) else n

/-- Tries `count` digits, then one more at a time, for a value that leads with `10 ^ lead`. -/
def shortestFrom (i : Interval) (lead : Int) : Nat → Nat → Digits
  | 0, _ => ⟨0, 0⟩
  | fuel + 1, count =>
    let power := lead - count + 1
    match i.hit? power with
    | some n => ⟨dropTrailingZeros 20 n, power + digitCount n - 1⟩
    | none => shortestFrom i lead fuel (count + 1)

/-- The fewest digits that read back to a positive number; seventeen always suffice. -/
def shortest (significand : Nat) (exponent : Int) : Digits :=
  let i := Interval.ofDouble significand exponent
  shortestFrom i (leadingPower i.value i.den) 17 1

/-- How a format writes numbers: the sign of a positive exponent and the words for what has no
digits. -/
structure NumberLayout where
  exponentPlus : String
  infinity : String
  negativeInfinity : String
  notANumber : String

/-- Positional for exponents from -5 to 15 with a digit after the point, otherwise scientific. -/
def Digits.layout (plus : String) (d : Digits) : String :=
  let text := toString d.digits
  let count := text.length
  if 0 ≤ d.exponent ∧ d.exponent ≤ 15 then
    let whole := d.exponent.toNat + 1
    if count ≤ whole then
      text ++ "".pushn '0' (whole - count) ++ ".0"
    else
      String.ofList (text.toList.take whole) ++ "." ++ String.ofList (text.toList.drop whole)
  else if -5 ≤ d.exponent ∧ d.exponent < 0 then
    "0." ++ "".pushn '0' ((-d.exponent).toNat - 1) ++ text
  else
    let head := String.ofList (text.toList.take 1)
    let tail := String.ofList (text.toList.drop 1)
    let point := if tail.isEmpty then head else head ++ "." ++ tail
    let sign := if 0 ≤ d.exponent then plus else "-"
    point ++ "e" ++ sign ++ toString d.exponent.natAbs

def Double.text (f : NumberLayout) : Double → String
  | .infinite false => f.infinity
  | .infinite true => f.negativeInfinity
  | .notANumber => f.notANumber
  | .finite negative significand exponent =>
    (if negative then "-" else "") ++
      if significand = 0 then "0.0" else (shortest significand exponent).layout f.exponentPlus

end Blueprint.Number
