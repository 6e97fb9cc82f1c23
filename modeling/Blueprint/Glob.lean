import Blueprint.Text.Cut

/-!
Patterns for file paths: `?` and `*`, `**` for whole leading directories, and `[...]` for a set of
characters. A pattern has to match the whole path.
-/

namespace Blueprint

namespace Glob

/-- A set of characters as inclusive ranges. -/
structure CharSet where
  negated : Bool
  ranges : List (Char × Char)
deriving DecidableEq

inductive Token where
  | char (c : Char)
  | anyChar
  | oneOf (set : CharSet)
  /-- Any text, also across directories. -/
  | anyText
  /-- Nothing, a text up to a slash, or all that is left. -/
  | anyDirectories
deriving DecidableEq

inductive FaultKind where
  | tooManyStars
  | partOfName
  | range
deriving DecidableEq

/-- Why a text is no pattern, and the position of the fault in characters. -/
structure Fault where
  kind : FaultKind
  position : Nat
deriving DecidableEq

def FaultKind.text : FaultKind → String
  | tooManyStars => "wildcards are either regular `*` or recursive `**`"
  | partOfName => "recursive wildcards must form a single path component"
  | range => "invalid range pattern"

def Fault.message (f : Fault) : String :=
  "Pattern syntax error near position " ++ toString f.position ++ ": " ++ f.kind.text

def isSeparator (c : Char) : Bool :=
  c == '/'

/-- The ranges of a set: `a-z`, or single characters. -/
def rangesOf : List Char → List (Char × Char)
  | a :: '-' :: b :: r => (a, b) :: rangesOf r
  | a :: r => (a, a) :: rangesOf r
  | [] => []

/-- A set, from after its bracket, and the rest. The first character is never the end. -/
def readSet? (s : List Char) : Option (CharSet × List Char) :=
  let (negated, body) :=
    match s with
    | '!' :: r => (true, r)
    | r => (false, r)
  match body with
  | [] => none
  | c :: r =>
    (Text.cutAt? ']' r).map fun (inside, rest) => (⟨negated, rangesOf (c :: inside)⟩, rest)

theorem length_cutAt? {c : Char} {s a b : List Char} (h : Text.cutAt? c s = some (a, b)) :
    b.length < s.length := by
  induction s generalizing a b with
  | nil => simp [Text.cutAt?] at h
  | cons d r ih =>
    simp only [Text.cutAt?] at h
    split at h
    next => simp_all
    next =>
      obtain ⟨⟨before, rest⟩, hr, he⟩ := Option.map_eq_some_iff.mp h
      have := ih hr
      simp only [Prod.mk.injEq] at he
      simp only [List.length_cons, ← he.2]
      omega

theorem length_readSet? {s rest : List Char} {set : CharSet} (h : readSet? s = some (set, rest)) :
    rest.length < s.length := by
  unfold readSet? at h
  split at h
  rename_i negated body hs
  have hle : body.length ≤ s.length := by
    split at hs <;> simp_all [Prod.ext_iff]
  split at h
  next => simp at h
  next c r =>
    obtain ⟨⟨inside, b⟩, hr, he⟩ := Option.map_eq_some_iff.mp h
    have := length_cutAt? hr
    simp only [Prod.mk.injEq] at he
    simp only [List.length_cons] at hle
    rw [← he.2]
    omega

/-- Reads a pattern from `index` on, after the character `previous`. -/
def tokensFrom (index : Nat) (previous : Option Char) : List Char → Except Fault (List Token)
  | [] => .ok []
  | '?' :: r => return .anyChar :: (← tokensFrom (index + 1) (some '?') r)
  | '*' :: '*' :: '*' :: _ => .error ⟨.tooManyStars, index + 2⟩
  | '*' :: '*' :: r => do
    if previous.any (!isSeparator ·) then throw ⟨.partOfName, index - 1⟩
    match r with
    | [] => return [.anyDirectories]
    | c :: r =>
      if isSeparator c then
        return .anyDirectories :: (← tokensFrom (index + 3) (some c) r)
      else throw ⟨.partOfName, index + 2⟩
  | '*' :: r => return .anyText :: (← tokensFrom (index + 1) (some '*') r)
  | '[' :: r =>
    match h : readSet? r with
    | some (set, rest) =>
      have := length_readSet? h
      return .oneOf set :: (← tokensFrom (index + 1 + (r.length - rest.length)) (some ']') rest)
    | none => .error ⟨.range, index⟩
  | c :: r => return .char c :: (← tokensFrom (index + 1) (some c) r)
termination_by s => s.length

def CharSet.holds (set : CharSet) (c : Char) : Bool :=
  set.ranges.any (fun (low, high) => low ≤ c && c ≤ high) != set.negated

/-- Whether `p` holds of some end of the text. -/
def anyEnd (p : List Char → Bool) : List Char → Bool
  | [] => p []
  | c :: r => p (c :: r) || anyEnd p r

/-- Whether `p` holds of what follows some slash. -/
def anyAfterSlash (p : List Char → Bool) : List Char → Bool
  | [] => false
  | c :: r => (isSeparator c && p r) || anyAfterSlash p r

def tokensMatch : List Token → List Char → Bool
  | [], s => s.isEmpty
  | .anyText :: r, s => anyEnd (tokensMatch r) s
  | .anyDirectories :: r, s =>
    tokensMatch r s || anyAfterSlash (tokensMatch r) s || tokensMatch r []
  | .char c :: r, d :: s => c == d && tokensMatch r s
  | .anyChar :: r, _ :: s => tokensMatch r s
  | .oneOf set :: r, d :: s => set.holds d && tokensMatch r s
  | _ :: _, [] => false

end Glob

/-- A pattern and the text that it was read from. -/
structure Glob where
  text : String
  tokens : List Glob.Token

namespace Glob

def ofText (text : String) : Except Fault Glob :=
  (tokensFrom 0 none text.toList).map fun tokens => ⟨text, tokens⟩

def covers (g : Glob) (path : String) : Bool :=
  tokensMatch g.tokens path.toList

end Glob

end Blueprint
