import Blueprint.Number.Double
import Blueprint.Number.Integer

/-!
Decimal texts: `12`, `-1.5`, `.5`, `1.`, `1e9`, and the words for infinity and no number.
-/

namespace Blueprint.Number

def leadingDigits (s : List Char) : List Char × List Char :=
  (s.takeWhile Char.isDigit, s.dropWhile Char.isDigit)

/-- The exponent that makes up the whole of `s`: nothing, or `e` and a signed number. -/
def exponentPart? : List Char → Option Int
  | [] => some 0
  | c :: r => if c = 'e' ∨ c = 'E' then signed? 10 r else none

/-- A decimal without a sign. -/
def unsignedDecimal? (negative : Bool) (s : List Char) : Option Double :=
  let (whole, rest) := leadingDigits s
  let (fraction, rest) :=
    match rest with
    | '.' :: r => leadingDigits r
    | r => ([], r)
  let digits := whole ++ fraction
  (natural? 10 digits).bind fun value =>
    (exponentPart? rest).map fun e =>
      Double.ofDecimal negative value digits.length (e - fraction.length)

/-- The words `inf`, `infinity` and `nan` in any case. -/
def numberWord? (negative : Bool) (s : List Char) : Option Double :=
  let lower := String.ofList (s.map Char.toLower)
  if lower = "inf" ∨ lower = "infinity" then some (.infinite negative)
  else if lower = "nan" then some .notANumber
  else none

def decimal? (s : List Char) : Option Double :=
  let (negative, rest) :=
    match s with
    | '-' :: r => (true, r)
    | '+' :: r => (false, r)
    | r => (false, r)
  (numberWord? negative rest).or (unsignedDecimal? negative rest)

end Blueprint.Number
