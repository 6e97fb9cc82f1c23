import Blueprint.Setting.Read
import Blueprint.Text.Cut

/-!
The canonical text of a setting: two columns for each level, lists at the column of their key, one
line for each scalar, apart from texts with line breaks. A text is quoted where it would otherwise
be read as something else.
-/

namespace Blueprint.Setting

/-- Characters that stand for themselves in canonical text. -/
def isPlainPrintable (c : Char) : Bool :=
  let n := c.toNat
  n == 0x0A || (0x20 ≤ n && n ≤ 0x7E) || (0xA0 ≤ n && n ≤ 0xD7FF)
    || (0xE000 ≤ n && n ≤ 0xFFFD && n != 0xFEFF)

def isBreak (c : Char) : Bool :=
  Yaml.Dialect.settings.isBreak c

/-- White space after which a `#` starts a comment and before which a colon ends a key. -/
def isGap (c : Char) : Bool :=
  c == ' ' || c == '\t' || isBreak c

def gapFollows (rest : List Char) : Bool :=
  rest.head?.all isGap

/-- Whether some character with `p` has one with `q` directly after it. -/
def hasPair (p q : Char → Bool) : List Char → Bool
  | a :: b :: r => (p a && q b) || hasPair p q (b :: r)
  | _ => false

/-- Whether a colon that ends a key or the sign of a comment stands in a text. -/
def hasIndicator (afterGap : Bool) : List Char → Bool
  | [] => false
  | c :: r =>
    (c == ':' && gapFollows r) || (c == '#' && afterGap) || hasIndicator (isGap c) r

/-- Whether the start of a text looks like the start of something else. -/
def startsLikeIndicator : List Char → Bool
  | [] => false
  | c :: r =>
    "#,[]\x7b\x7d&*!|>'\"%@\x60".toList.contains c
      || ((c == '?' || c == '-') && gapFollows r)

def startsLikeMarker (s : List Char) : Bool :=
  s.take 3 == "---".toList || s.take 3 == "...".toList

/-- Whether a text can do without quotes in a block collection. -/
def plainAllowed (s : List Char) : Bool :=
  let atEnds (p : Char → Bool) : Bool := s.head?.any p || s.getLast?.any p
  s.all isPlainPrintable && !s.any isBreak && !atEnds (· == ' ')
    && !startsLikeMarker s && !startsLikeIndicator s && !hasIndicator false s

/-- Whether single quotes will do. -/
def singleQuotesAllowed (s : List Char) : Bool :=
  s.all isPlainPrintable && !hasPair isBreak (· == ' ') s && !hasPair (· == ' ') isBreak s

/-- Whether a text can be written line by line. -/
def blockAllowed (s : List Char) : Bool :=
  s.all isPlainPrintable && !hasPair (· == ' ') isBreak s && s.getLast? != some ' '

/-- Words that other readers take for booleans. -/
def switchWords : List String :=
  ["y", "Y", "yes", "Yes", "YES", "n", "N", "no", "No", "NO", "true", "True", "TRUE", "false",
   "False", "FALSE", "on", "On", "ON", "off", "Off", "OFF"]

/-- Whether a text without quotes might be read as something else than this text. -/
def isAmbiguous (s : String) : Bool :=
  switchWords.contains s ||
    match ofPlain? s with
    | some (.text _) => isPaddedDigits s.toList
    | _ => true

/-- The way in which a text is written. -/
inductive Layout where
  | plain
  | single
  | double
  | block
deriving DecidableEq

/-- `isKey` holds of a key before its colon. -/
def layoutOf (isKey : Bool) (s : String) : Layout :=
  let chars := s.toList
  let quoted := if singleQuotesAllowed chars then Layout.single else .double
  if isKey && chars.any isBreak then .double
  else if switchWords.contains s then quoted
  else if chars.contains '\n' then if isKey || !blockAllowed chars then .double else .block
  else if isAmbiguous s || !plainAllowed chars then quoted
  else .plain

def spaces (n : Nat) : List Char :=
  List.replicate n ' '

/-- Puts `indent` spaces before each line that starts in a text; `atStart` tells whether one starts
here. -/
def indentLines (indent : Nat) (atStart : Bool) : List Char → List Char
  | [] => []
  | c :: r =>
    if isBreak c then c :: indentLines indent true r
    else if atStart then spaces indent ++ c :: indentLines indent false r
    else c :: indentLines indent false r

def hexDigits (width n : Nat) : List Char :=
  (List.range width).reverse.map fun i =>
    let d := n / Nat.pow 16 i % 16
    Char.ofNat (if d < 10 then d + '0'.toNat else d - 10 + 'A'.toNat)

/-- A character between double quotes. -/
def escaped (c : Char) : List Char :=
  if isPlainPrintable c && !isBreak c && c != '"' && c != '\\' then [c]
  else
    let n := c.toNat
    let short :=
      [(0, '0'), (7, 'a'), (8, 'b'), (9, 't'), (10, 'n'), (11, 'v'), (12, 'f'), (13, 'r'),
       (0x1B, 'e'), (0x22, '"'), (0x5C, '\\'), (0x85, 'N'), (0x2028, 'L'), (0x2029, 'P')]
    match short.lookup n with
    | some letter => ['\\', letter]
    | none =>
      if n ≤ 0xFF then '\\' :: 'x' :: hexDigits 2 n
      else if n ≤ 0xFFFF then '\\' :: 'u' :: hexDigits 4 n
      else '\\' :: 'U' :: hexDigits 8 n

/-- What follows the bar of a text written line by line: whether its indentation has to be told,
and what happens to line breaks at its end. -/
def blockHints (s : List Char) : List Char :=
  let indentHint := if s.head?.any (fun c => c == ' ' || isBreak c) then ['2'] else []
  let endHint :=
    match s.reverse with
    | [] => ['-']
    | [c] => if isBreak c then ['+'] else ['-']
    | c :: d :: _ => if !isBreak c then ['-'] else if isBreak d then ['+'] else []
  indentHint ++ endHint

/-- A text as it is written: its first line and the lines below it. -/
def textLines (isKey : Bool) (indent : Nat) (s : String) : List Char × List (List Char) :=
  let chars := s.toList
  match layoutOf isKey s with
  | .plain => (chars, [])
  | .single =>
    let doubled := chars.flatMap fun c => if c == '\'' then [c, c] else [c]
    ('\'' :: indentLines indent false (doubled ++ ['\'']), [])
  | .double => ('"' :: chars.flatMap escaped ++ ['"'], [])
  | .block =>
    ('|' :: blockHints chars, Text.lines (indentLines indent true chars))

/-- The lines of a value that needs no block: a scalar or an empty collection. -/
def scalarLines? (isKey : Bool) (indent : Nat) : Setting → Option (List Char × List (List Char))
  | null => some ("null".toList, [])
  | bool b => some ((if b then "true" else "false").toList, [])
  | int i => some ((toString i).toList, [])
  | float x => some ((x.text numberLayout).toList, [])
  | text s => some (textLines isKey indent s)
  | list [] => some (['[', ']'], [])
  | mapping [] => some (['\x7b', '\x7d'], [])
  | _ => none

def uriText (s : List Char) : List Char :=
  s.flatMap fun c =>
    if Yaml.isNameChar c || ";/?:@&=+$,.~*'()[]".toList.contains c then [c]
    else (String.singleton c).toUTF8.toList.flatMap fun b => '%' :: hexDigits 2 b.toNat

/-- What follows the exclamation mark of a tag. -/
def tagSuffix (name : String) : List Char :=
  match name.toList with
  | '!' :: r => r
  | s => s

/-- A tag as it is written before its value. A lone exclamation mark is written as a whole URI. -/
def tagText (name : String) : List Char :=
  match tagSuffix name with
  | [] => '!' :: '<' :: uriText ['!'] ++ ['>']
  | s => '!' :: uriText s

/-- The value without a tag, and the tag with a space. -/
def splitTag : Setting → List Char × Setting
  | tagged name v => (tagText name, v)
  | v => ([], v)

def isList : Setting → Bool
  | list _ => true
  | _ => false

/-- How many bytes a key may have before its colon. -/
def keyLimit : Nat := 128

def byteCount (s : List Char) : Nat :=
  s.foldl (fun n c => n + c.utf8Size) 0

/-- The bytes that count towards the limit of a key: those of its text and of its tag, both before
anything in them is escaped. -/
def keySize (v : Setting) : Nat :=
  let tagBytes :=
    match v with
    | tagged name _ => 1 + byteCount (tagSuffix name)
    | _ => 0
  tagBytes +
    match (splitTag v).2 with
    | list _ | mapping _ => 0
    | text s => s.utf8ByteSize
    | bare => ((scalarLines? true 0 bare).map fun (line, _) => byteCount line).getD 0

/-- A key before its colon, if it is short and has no block and no line break. -/
def simpleKey? (k : Setting) : Option (List Char) :=
  let (tag, v) := splitTag k
  let broken :=
    match v with
    | text s => s.toList.any isBreak
    | _ => false
  if broken || keyLimit < keySize k then none
  else (scalarLines? true 0 v).map fun (line, _) => if tag.isEmpty then line else tag ++ ' ' :: line

/-- Puts a lead before lines at `indent`, in the place of the first line's indentation. -/
def attach (lead : List Char) (indent : Nat) : List (List Char) → List (List Char)
  | [] => [lead]
  | first :: rest => (lead ++ ' ' :: first.drop indent) :: rest

/-- Where a block collection stands. -/
inductive Place where
  /-- After a key and its colon. -/
  | afterKey
  /-- After a hyphen. -/
  | afterHyphen
  /-- After a question mark, or after a colon on a line of its own. -/
  | afterMark
deriving DecidableEq

def Place.blockIndent (p : Place) (indent : Nat) (tagged isList : Bool) : Nat :=
  match p with
  | afterKey => if isList then indent else indent + 2
  | afterHyphen => indent + 2
  | afterMark => if isList && tagged then indent else indent + 2

/-- Writes a value after a lead, where `block` writes a block collection at an indentation. -/
def writeAfter (p : Place) (lead : List Char) (indent : Nat) (tag : List Char) (v : Setting)
    (block : Nat → List (List Char)) : List (List Char) :=
  let lead := if tag.isEmpty then lead else lead ++ ' ' :: tag
  match scalarLines? false (indent + 2) v with
  | some (line, more) => (lead ++ ' ' :: line) :: more
  | none =>
    let inner := p.blockIndent indent (!tag.isEmpty) (isList v)
    if tag.isEmpty && p != .afterKey then attach lead inner (block inner)
    else lead :: block inner

mutual

/-- The lines of a block collection whose lines start after `indent` columns. -/
def blockLines (indent : Nat) : Setting → List (List Char)
  | list items => itemLines indent items
  | mapping entries => entryLines indent entries
  | tagged _ v => blockLines indent v
  | _ => []

def itemLines (indent : Nat) : List Setting → List (List Char)
  | [] => []
  | v :: r =>
    let (tag, bare) := splitTag v
    writeAfter .afterHyphen (spaces indent ++ ['-']) indent tag bare (fun n => blockLines n v)
      ++ itemLines indent r

def entryLines (indent : Nat) : List (Setting × Setting) → List (List Char)
  | [] => []
  | (k, v) :: r =>
    let (keyTag, bareKey) := splitTag k
    let (tag, bare) := splitTag v
    (match simpleKey? k with
      | some key =>
        writeAfter .afterKey (spaces indent ++ key ++ [':']) indent tag bare
          (fun n => blockLines n v)
      | none =>
        writeAfter .afterMark (spaces indent ++ ['?']) indent keyTag bareKey
            (fun n => blockLines n k)
          ++ writeAfter .afterMark (spaces indent ++ [':']) indent tag bare
            (fun n => blockLines n v))
      ++ entryLines indent r

end

/-- The lines of the canonical text of a value. -/
def lines (v : Setting) : List (List Char) :=
  let (tag, bare) := splitTag v
  match scalarLines? false 2 bare with
  | some (line, more) => (if tag.isEmpty then line else tag ++ ' ' :: line) :: more
  | none => (if tag.isEmpty then [] else [tag]) ++ blockLines 0 bare

end Blueprint.Setting
