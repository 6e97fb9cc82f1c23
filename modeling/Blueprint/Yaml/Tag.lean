import Blueprint.Yaml.Cursor
import Blueprint.Yaml.Token

/-!
Tags, anchors, aliases and directives.
-/

namespace Blueprint.Yaml

/-- A character of a tag's URI. In settings a short tag holds no flow indicators, so `whole` tells
whether the URI stands for itself. -/
def isUriChar (d : Dialect) (whole : Bool) (c : Char) : Bool :=
  isNameChar c || ";/?:@&=+$.!~*'()%".toList.contains c
    || ((whole || !d.strict) && (c == ',' || c == '[' || c == ']'))

/-- The number of octets in a character that starts with this one. -/
def octetCount? (octet : Nat) : Option Nat :=
  if octet < 0x80 then some 1
  else if octet / 0x20 = 6 then some 2
  else if octet / 0x10 = 14 then some 3
  else if octet / 0x08 = 30 then some 4
  else none

def charOf? (code : Nat) : Option Char :=
  if code.isValidChar then some (Char.ofNat code) else none

/-- The character that octets stand for, if there is no shorter way to write it. -/
def decoded? (octets : List Nat) : Option Char :=
  match octets with
  | [] => none
  | lead :: rest =>
    let mask := if rest.isEmpty then 0x80 else Nat.pow 2 (6 - rest.length)
    let code := rest.foldl (fun code octet => 64 * code + octet % 64) (lead % mask)
    (charOf? code).filter (·.utf8Size = octets.length)

/-- The character whose code point the octets are, strung together. -/
def strung? (octets : List Nat) : Option Char :=
  charOf? (octets.foldl (fun code octet => 256 * code + octet) 0)

def readOctet (start : Mark) (c : Cursor) : Except ScanError Nat :=
  if c.first == '%' && isHex (c.ahead 1) && isHex (c.ahead 2) then
    .ok (16 * hexDigit (c.ahead 1) + hexDigit (c.ahead 2))
  else fail .tagEscape start
where
  hexDigit (c : Char) : Nat :=
    if c.isDigit then c.toNat - '0'.toNat
    else if 'a' ≤ c then c.toNat - 'a'.toNat + 10
    else c.toNat - 'A'.toNat + 10

def readOctets (d : Dialect) (start : Mark) :
    Nat → List Nat → Cursor → Except ScanError (List Nat × Cursor)
  | 0, octets, c => .ok (octets, c)
  | n + 1, octets, c => do
    let octet ← readOctet start c
    if octet / 0x40 ≠ 2 then fail .tagTrailingOctet start
    readOctets d start n (octets ++ [octet]) (c.skip d 3)

/-- Reads as many escaped octets as the first one announces. Settings pass over octets that form no
character, documents refuse them. -/
def readUriEscape (d : Dialect) (start : Mark) (c : Cursor) :
    Except ScanError (Option Char × Cursor) := do
  let lead ← readOctet start c
  match octetCount? lead with
  | none => fail .tagLeadingOctet start
  | some count =>
    let (octets, c) ← readOctets d start (count - 1) [lead] (c.skip d 3)
    if d.strict then return (decoded? octets, c)
    match strung? octets with
    | some x => return (some x, c)
    | none => fail .tagCodePoint start

def uriFrom (d : Dialect) (whole : Bool) (start : Mark) :
    Nat → List (Option Char) → Cursor → Except ScanError (List (Option Char) × Cursor)
  | 0, uri, c => .ok (uri.reverse, c)
  | fuel + 1, uri, c =>
    if !isUriChar d whole c.first then .ok (uri.reverse, c)
    else if c.first == '%' then do
      let (x, c) ← readUriEscape d start c
      uriFrom d whole start fuel (x :: uri) c
    else uriFrom d whole start fuel (some c.first :: uri) (c.advance d)

/-- Reads a URI that may not be empty, unless a handle `head` stands before it; of the head all but
the first character belongs to the URI. In settings it ends before an escaped NUL. -/
def readUri (d : Dialect) (whole : Bool) (start : Mark) (head : List Char) (c : Cursor) :
    Except ScanError (Uri × Cursor) := do
  let (uri, stop) ← uriFrom d whole start (c.rest.length + 1) [] c
  if head.isEmpty && uri.isEmpty then fail .tagWithoutUri start
  let pieces := (head.drop 1).map some ++ uri
  return (.ofPieces (if d.strict then pieces.takeWhile (· != some '\x00') else pieces), stop)

/-- Reads `!`, `!!` or `!name!`; outside a directive also the start of `!name`. -/
def readTagHandle (d : Dialect) (directive : Bool) (start : Mark) (c : Cursor) :
    Except ScanError (List Char × Cursor) := do
  if c.first != '!' then fail .tagStart start
  let (name, c) := (c.advance d).takeWhile d isNameChar
  if c.first == '!' then return ('!' :: name ++ ['!'], c.advance d)
  if directive && !name.isEmpty then fail .tagDirectiveHandle start
  return ('!' :: name, c)

/-- Whether a tag may end before `c`. -/
def endsTag (d : Dialect) (flow : Bool) (c : Char) : Bool :=
  d.isGap c || (d.strict && flow && c == ',')

/-- Reads `!<uri>`, `!suffix` or `!handle!suffix`. -/
def readTag (d : Dialect) (flow : Bool) (c : Cursor) : Except ScanError (Tag × Cursor) := do
  let start := c.mark
  let (tag, c) ←
    if c.ahead 1 == '<' then do
      let (uri, c) ← readUri d true start [] (c.skip d 2)
      if c.first != '>' then fail .tagNotClosed start
      pure ((⟨"", uri⟩ : Tag), c.advance d)
    else do
      let (handle, c) ← readTagHandle d false start c
      if 2 ≤ handle.length && handle.getLast? == some '!' then
        let (suffix, c) ← readUri d false start [] c
        pure ((⟨String.ofList handle, suffix⟩ : Tag), c)
      else
        let (suffix, c) ← readUri d false start handle c
        pure (if suffix.text = "" then (⟨"", ⟨"!", false⟩⟩ : Tag) else ⟨"!", suffix⟩, c)
  if endsTag d flow c.first then return (tag, c) else fail .tagEnd start

/-- Whether the name of an anchor or alias may end before `c`. -/
def endsAnchor (d : Dialect) (c : Char) : Bool :=
  d.isGap c || "?:,]\x7d%@\x60".toList.contains c

/-- Reads the name of an anchor or alias, from its indicator on. -/
def readAnchor (d : Dialect) (c : Cursor) : Except ScanError (String × Cursor) :=
  let (name, stop) := (c.advance d).takeWhile d isNameChar
  if name.isEmpty || !endsAnchor d stop.first then fail .anchorName c.mark
  else .ok (String.ofList name, stop)

/-! Directives. -/

def readDirectiveName (d : Dialect) (c : Cursor) : Except ScanError (String × Cursor) :=
  let (name, stop) := c.takeWhile d isNameChar
  if name.isEmpty then fail .directiveWithoutName c.mark
  else if !d.isGap stop.first then fail .directiveName c.mark
  else .ok (String.ofList name, stop)

/-- Reads a number of up to nine digits. -/
def readVersionNumber (d : Dialect) (start : Mark) (c : Cursor) : Except ScanError (Nat × Cursor) :=
  let (digits, stop) := c.takeWhile d Char.isDigit
  if digits.isEmpty then fail .versionWithoutNumber start
  else if 9 < digits.length then fail .versionTooLong start
  else .ok (digits.foldl (fun n c => 10 * n + (c.toNat - '0'.toNat)) 0, stop)

def readVersion (d : Dialect) (start : Mark) (c : Cursor) :
    Except ScanError (TokenKind × Cursor) := do
  let (major, c) ← readVersionNumber d start (c.skipWhile d isSpace)
  if c.first != '.' then fail .versionWithoutDot start
  let (minor, c) ← readVersionNumber d start (c.advance d)
  return (.versionDirective major minor, c)

/-- Reads what follows `%TAG`. In settings the handle and the URI stand apart. -/
def readTagDirective (d : Dialect) (start : Mark) (c : Cursor) :
    Except ScanError (TokenKind × Cursor) := do
  let (handle, c) ← readTagHandle d true start (c.skipWhile d isSpace)
  if d.strict && !isSpace c.first then fail .tagDirectiveEnd start
  let (uri, c) ← readUri d true start [] (c.skipWhile d isSpace)
  if d.isGap c.first then return (.tagDirective (String.ofList handle) uri, c)
  fail .tagDirectiveEnd start

/-- Reads a directive, from its `%` to the end of its line. Documents pass over a directive of an
unknown name. -/
def readDirective (d : Dialect) (c : Cursor) : Except ScanError (TokenKind × Cursor) := do
  let start := c.mark
  let (name, c) ← readDirectiveName d (c.advance d)
  let (kind, c) ←
    if name = "YAML" then readVersion d start c
    else if name = "TAG" then readTagDirective d start c
    else if d.strict then fail .directiveUnknown start
    else pure (.tagDirective "" ⟨"", false⟩, c.skipWhile d (fun x => !d.isBreakOrEnd x))
  let c := (c.skipWhile d isSpace).skipComment d
  if !d.isBreakOrEnd c.first then fail .directiveEnd start
  return (kind, c.skipBreak d)

end Blueprint.Yaml
