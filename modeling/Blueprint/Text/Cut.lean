/-!
Cutting a text: at a separator, at the first occurrence of a piece, at a known start.
-/

namespace Blueprint.Text

/-- What follows `start` in `s`, when `s` begins with it. -/
def after? : List Char → List Char → Option (List Char)
  | [], s => some s
  | _ :: _, [] => none
  | c :: start, d :: s => if c = d then after? start s else none

/-- The pieces between the occurrences of `separator`; a text without one is a single piece. -/
def pieces (separator : Char) : List Char → List (List Char)
  | [] => [[]]
  | c :: r =>
    match pieces separator r with
    | [] => [[]]
    | first :: rest => if c = separator then [] :: first :: rest else (c :: first) :: rest

/-- The text before and after the first occurrence of `separator`. -/
def cutAt? (separator : Char) : List Char → Option (List Char × List Char)
  | [] => none
  | c :: r =>
    if c = separator then some ([], r)
    else (cutAt? separator r).map fun (before, rest) => (c :: before, rest)

/-- The words of a text: its longest runs of characters outside `isGap`. -/
def words (isGap : Char → Bool) (s : List Char) : List (List Char) :=
  (s.foldr
    (fun c (current, done) =>
      if isGap c then ([], if current.isEmpty then done else current :: done)
      else (c :: current, done))
    (([], []) : List Char × List (List Char))) |> fun (current, done) =>
      if current.isEmpty then done else current :: done

/-- Replaces every occurrence of `piece`, from the left, without overlap. `skip` counts the
characters of an occurrence still to be passed over. -/
def replaceFrom (piece new : List Char) : Nat → List Char → List Char
  | _, [] => []
  | skip + 1, _ :: r => replaceFrom piece new skip r
  | 0, c :: r =>
    match after? piece (c :: r) with
    | some _ => new ++ replaceFrom piece new (piece.length - 1) r
    | none => c :: replaceFrom piece new 0 r

/-- Replaces every occurrence of `piece` by `new`. An empty piece occurs around every character. -/
def replaceAll (piece new s : List Char) : List Char :=
  if piece.isEmpty then s.foldr (fun c r => new ++ c :: r) new
  else replaceFrom piece new 0 s

def occursIn (piece : List Char) : List Char → Bool
  | [] => piece.isEmpty
  | c :: r => (after? piece (c :: r)).isSome || occursIn piece r

/-- The lines of a text without their `\n` or `\r\n`; a final terminator opens no further line. -/
def lines (s : List Char) : List (List Char) :=
  let all := pieces '\n' s
  let body := if all.getLast? = some [] then all.dropLast else all
  let stripReturn (line : List Char) := if line.getLast? = some '\r' then line.dropLast else line
  match s.getLast? with
  | some '\n' => body.map stripReturn
  | _ => body.dropLast.map stripReturn ++ body.getLast?.toList

def joinWith (separator : String) (items : List String) : String :=
  separator.intercalate items

end Blueprint.Text
