import Blueprint.Text.Alphabetic
import Blueprint.Text.Blank
import Blueprint.Text.Case
import Blueprint.Text.Cut

/-!
Repairs of the content of one line: booleans in lower case, no white space at the end, the usual
space around colons and commas and inside brackets.
-/

namespace Blueprint.Content

/-- A letter of a truth word in lower case. The long s counts as an s and stays. -/
def foldLetter (c : Char) : Char :=
  if c == 'ſ' then 's' else c.toLower

def isTruthWord (word : List Char) : Bool :=
  let folded := word.map foldLetter
  folded == "true".toList || folded == "false".toList

/-- The longest pieces whose characters all belong to words, or all do not. -/
def wordRuns (s : List Char) : List (List Char) :=
  s.splitBy fun a b => Text.isWord a == Text.isWord b

def lowerTruth (s : List Char) : List Char :=
  (wordRuns s).flatMap fun run => if isTruthWord run then run.map Char.toLower else run

def trimSpaces (s : List Char) : List Char :=
  Text.dropEndWhile (fun c => c == ' ' || c == '\t') s

/-- A key, its first colon and its value: nothing before the colon, one space after it. -/
def spaceColon (s : List Char) : List Char :=
  match Text.cutAt? ':' s with
  | none => s
  | some (key, rest) =>
    if key.all Text.isBlank || !rest.head?.all Text.isBlank then s
    else
      let value := Text.trim rest
      Text.trimEnd key ++ ':' :: if value.isEmpty then [] else ' ' :: value

/-- The pieces after a first comma, each one behind its comma. -/
def afterComma : List (List Char) → List Char
  | [] => []
  | [last] => ',' :: ' ' :: Text.trimStart last
  | piece :: r => ',' :: ' ' :: Text.trim piece ++ afterComma r

/-- Every comma directly after what precedes it and one space before what follows. -/
def spaceCommas (s : List Char) : List Char :=
  Text.trimEnd <|
    match Text.pieces ',' s with
    | [] => []
    | [only] => only
    | first :: r => Text.trimEnd first ++ afterComma r

/-- Leaves one space of the white space after each `sign`; `dropping` tells whether white space here
is to go. -/
def squeezeAfter (sign : Char) (dropping : Bool) : List Char → List Char
  | [] => []
  | c :: r =>
    if dropping && Text.isBlank c then squeezeAfter sign true r
    else if c == sign && r.head?.any Text.isBlank then c :: ' ' :: squeezeAfter sign true r
    else c :: squeezeAfter sign false r

/-- Leaves one space of the white space inside brackets. -/
def spaceBrackets (opening closing : Char) (s : List Char) : List Char :=
  (squeezeAfter closing false (squeezeAfter opening false s).reverse).reverse

/-- A label made of words: each starts with an upper-case letter. -/
def capitalizeWords (inWord : Bool) : List Char → List Char
  | [] => []
  | c :: r =>
    if Text.isAlphabetic c then
      (if inWord then Text.lowerOf c else Text.upperOf c) ++ capitalizeWords true r
    else c :: capitalizeWords false r

/-- The label for a key: without underscores and colons. -/
def labelOf (key : List Char) : List Char :=
  capitalizeWords false ((key.map fun c => if c == '_' then ' ' else c).filter (· != ':'))

end Blueprint.Content
