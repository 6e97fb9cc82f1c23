/-!
Membership of a character in a list of code point ranges.
-/

namespace Blueprint.Text

/-- Each pair holds the first and the last code point of a range. -/
def inRanges (ranges : List (Nat × Nat)) (c : Char) : Bool :=
  ranges.any fun (first, last) => first ≤ c.toNat && c.toNat ≤ last

end Blueprint.Text
