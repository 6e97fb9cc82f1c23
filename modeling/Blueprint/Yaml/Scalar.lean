import Blueprint.Yaml.Cursor
import Blueprint.Yaml.Token

/-!
The scalars of YAML: plain, quoted and block. Texts under construction are kept last character
first.
-/

namespace Blueprint.Yaml

/-- White space inside a scalar: spaces on one line, or line breaks of which the first folds. -/
structure Gap where
  spaces : List Char
  firstBreak : Option Char
  moreBreaks : List Char
  broken : Bool

namespace Gap

def none : Gap := ⟨[], .none, [], false⟩

/-- The gap after a line break that was escaped. -/
def escaped : Gap := ⟨[], .none, [], true⟩

def addSpace (g : Gap) (c : Char) : Gap :=
  if g.broken then g else { g with spaces := g.spaces ++ [c] }

def addBreak (g : Gap) (c : Char) : Gap :=
  if g.broken then { g with moreBreaks := g.moreBreaks ++ [Dialect.breakText c] }
  else ⟨[], some (Dialect.breakText c), [], true⟩

/-- The text a gap stands for: a single line feed becomes a space. -/
def folded (g : Gap) : List Char :=
  if g.broken then
    match g.firstBreak with
    | some '\n' => if g.moreBreaks.isEmpty then [' '] else g.moreBreaks
    | some c => c :: g.moreBreaks
    | .none => g.moreBreaks
  else g.spaces

/-- Reads white space. A tab at the start of a continued line before column `tabStop` is refused
as a fault at `start`. -/
def read (d : Dialect) (start : Mark) (tabStop : Int) :
    Gap → List Char → Mark → Except ScanError (Gap × Cursor)
  | g, [], m => .ok (g, ⟨[], m⟩)
  | g, c :: r, m =>
    if isSpace c then
      if g.broken && c == '\t' && decide ((m.column : Int) < tabStop) then fail .plainTab start
      else read d start tabStop (g.addSpace c) r (d.past c r m)
    else if d.isBreak c then
      if c == '\r' && r.head? == some '\n' then read d start tabStop g r (d.past c r m)
      else read d start tabStop (g.addBreak c) r (d.past c r m)
    else .ok (g, ⟨c :: r, m⟩)

end Gap

/-! Plain scalars. -/

/-- Whether a plain scalar ends before `c`, which `next` follows. -/
def endsPlain (d : Dialect) (flow : Bool) (c next : Char) : Bool :=
  (c == ':' && (d.isGap next || (flow && !d.strict && isFlowIndicator next)))
    || (flow && isFlowIndicator c)

/-- In settings a colon inside a flow collection may not touch an indicator. -/
def refusedColon (d : Dialect) (flow : Bool) (c next : Char) : Bool :=
  d.strict && flow && c == ':' && (next == '?' || isFlowIndicator next)

/-- Reads a plain scalar up to white space or its end. -/
def plainWord (d : Dialect) (flow : Bool) (start : Mark) (word : List Char) :
    List Char → Mark → Except ScanError (List Char × Cursor)
  | [], m => .ok (word, ⟨[], m⟩)
  | c :: r, m =>
    if d.isGap c then .ok (word, ⟨c :: r, m⟩)
    else if refusedColon d flow c (r.headD '\x00') then fail .plainColon start
    else if endsPlain d flow c (r.headD '\x00') then .ok (word, ⟨c :: r, m⟩)
    else plainWord d flow start (c :: word) r (d.past c r m)

/-- A scalar that has been read; `atLineStart` says that it ended with a line break. -/
structure ScalarRead where
  text : List Char
  start : Mark
  stop : Cursor
  atLineStart : Bool

def plainFrom (d : Dialect) (flow : Bool) (indent : Int) (start : Mark) :
    Nat → List Char → Gap → Cursor → Except ScanError ScalarRead
  | 0, text, gap, c => .ok ⟨text.reverse, start, c, gap.broken⟩
  | fuel + 1, text, gap, c =>
    if c.atIndicator d || c.first == '#' then .ok ⟨text.reverse, start, c, gap.broken⟩
    else do
      let (word, c) ← plainWord d flow start [] c.rest c.mark
      let (text, gap) :=
        if word.isEmpty then (text, gap) else (word ++ gap.folded.reverse ++ text, Gap.none)
      if !(isSpace c.first || d.isBreak c.first) then
        return ⟨text.reverse, start, c, gap.broken⟩
      let (gap, c) ← gap.read d start indent c.rest c.mark
      if !flow && decide ((c.mark.column : Int) < indent) then
        return ⟨text.reverse, start, c, gap.broken⟩
      plainFrom d flow indent start fuel text gap c

/-- Reads a plain scalar; its further lines are indented by `indent` at least. -/
def readPlain (d : Dialect) (flow : Bool) (indent : Int) (c : Cursor) :
    Except ScanError ScalarRead :=
  plainFrom d flow indent c.mark (c.rest.length + 1) [] Gap.none c

/-! Quoted scalars. -/

/-- The character for a letter after a backslash. -/
def escapeChar? (d : Dialect) (c : Char) : Option Char :=
  match c with
  | '0' => some '\x00'
  | 'a' => some '\x07'
  | 'b' => some '\x08'
  | 't' => some '\t'
  | '\t' => some '\t'
  | 'n' => some '\n'
  | 'v' => some '\x0b'
  | 'f' => some '\x0c'
  | 'r' => some '\r'
  | 'e' => some '\x1b'
  | ' ' => some ' '
  | '"' => some '"'
  | '\\' => some '\\'
  | 'N' => some '\u0085'
  | '_' => some '\u00a0'
  | 'L' => some '\u2028'
  | 'P' => some '\u2029'
  | '\'' => if d.strict then none else some '\''
  | '/' => if d.strict then some '/' else none
  | _ => none

/-- The number of hexadecimal digits after a letter that announces a code point. -/
def escapeWidth? (c : Char) : Option Nat :=
  match c with
  | 'x' => some 2
  | 'u' => some 4
  | 'U' => some 8
  | _ => none

def hexValue (c : Char) : Nat :=
  if c.isDigit then c.toNat - '0'.toNat
  else if 'a' ≤ c then c.toNat - 'a'.toNat + 10
  else c.toNat - 'A'.toNat + 10

/-- The value of the next `n` characters as hexadecimal digits. -/
def readHex? : Nat → Nat → List Char → Option Nat
  | 0, value, _ => some value
  | _ + 1, _, [] => none
  | n + 1, value, c :: r => if isHex c then readHex? n (16 * value + hexValue c) r else none

/-- Reads an escape sequence, from the backslash on. -/
def readEscape (d : Dialect) (start : Mark) (c : Cursor) : Except ScanError (Char × Cursor) :=
  let letter := c.ahead 1
  match escapeChar? d letter, escapeWidth? letter with
  | some x, _ => .ok (x, c.skip d 2)
  | none, some width =>
    let c := c.skip d 2
    match readHex? width 0 c.rest with
    | none => fail .quotedHex start
    | some code =>
      if code.isValidChar then .ok (Char.ofNat code, c.skip d width)
      else fail .quotedCodePoint start
  | none, none => fail .quotedEscape start

/-- Reads a quoted scalar up to white space or its closing quote; the flag tells of an escaped line
break just before the end. -/
def quotedWord (d : Dialect) (single : Bool) (start : Mark) :
    Nat → List Char → Cursor → Except ScanError (List Char × Bool × Cursor)
  | 0, word, c => .ok (word, false, c)
  | fuel + 1, word, c =>
    if d.isGap c.first then .ok (word, false, c)
    else if single then
      if c.first == '\'' then
        if c.ahead 1 == '\'' then quotedWord d single start fuel ('\'' :: word) (c.skip d 2)
        else .ok (word, false, c)
      else quotedWord d single start fuel (c.first :: word) (c.advance d)
    else if c.first == '"' then .ok (word, false, c)
    else if c.first == '\\' then
      if d.isBreak (c.ahead 1) then .ok (word, true, (c.advance d).skipBreak d)
      else do
        let (x, c) ← readEscape d start c
        quotedWord d single start fuel (x :: word) c
    else quotedWord d single start fuel (c.first :: word) (c.advance d)

def quotedFrom (d : Dialect) (single : Bool) (start : Mark) :
    Nat → List Char → Cursor → Except ScanError ScalarRead
  | 0, text, c => .ok ⟨text.reverse, start, c, false⟩
  | fuel + 1, text, c =>
    if c.atIndicator d then fail .quotedIndicator start
    else if isEnd c.first then fail .quotedEnd start
    else do
      let (text, escaped, c) ← quotedWord d single start (c.rest.length + 1) text c
      if c.first == (if single then '\'' else '"') then
        return ⟨text.reverse, start, c.advance d, false⟩
      let (gap, c) ←
        (if escaped then Gap.escaped else Gap.none).read d start 0 c.rest c.mark
      quotedFrom d single start fuel (gap.folded.reverse ++ text) c

/-- Reads a quoted scalar, from its opening quote on. -/
def readQuoted (d : Dialect) (single : Bool) (c : Cursor) : Except ScanError ScalarRead :=
  quotedFrom d single c.mark (c.rest.length + 1) [] (c.advance d)

/-! Block scalars. -/

/-- What becomes of the line breaks at the end of a block scalar. -/
inductive Chomp where
  | strip
  | clip
  | keep
deriving DecidableEq

/-- The indentation of a block scalar and the line breaks before a content line. -/
structure BlockLead where
  deepest : Nat
  breaks : List Char
  stop : Cursor

/-- Reads empty lines and indentation up to a content line. With `indent` 0 the indentation is not
known yet and the deepest one met is recorded. -/
def readLead (d : Dialect) (indent : Nat) :
    Nat → BlockLead → Except ScanError BlockLead
  | 0, lead => .ok lead
  | fuel + 1, lead =>
    let c := indentation indent lead.stop.rest lead.stop.mark
    let deepest := max lead.deepest c.mark.column
    if (indent == 0 || decide (c.mark.column < indent)) && c.first == '\t' then
      fail .blockScalarTab c.mark
    else if d.isBreak c.first then
      readLead d indent fuel
        ⟨deepest, lead.breaks ++ [Dialect.breakText c.first], c.skipBreak d⟩
    else .ok ⟨deepest, lead.breaks, c⟩
where
  indentation (indent : Nat) : List Char → Mark → Cursor
    | [], m => ⟨[], m⟩
    | c :: r, m =>
      if (indent == 0 || decide (m.column < indent)) && c == ' ' then
        indentation indent r (d.past c r m)
      else ⟨c :: r, m⟩

/-- The content lines read so far and the line breaks that wait for what follows them. -/
structure BlockText where
  text : List Char
  lineBreak : Option Char
  moreBreaks : List Char
  afterSpace : Bool

namespace BlockText

/-- The text with the waiting line breaks written out; in a folded scalar a line break between two
lines that do not start with white space becomes a space. -/
def joined (b : BlockText) (literal : Bool) (c : Char) : List Char :=
  let text :=
    if !literal && b.lineBreak == some '\n' && !b.afterSpace && !isSpace c then
      if b.moreBreaks.isEmpty then ' ' :: b.text else b.text
    else b.lineBreak.toList ++ b.text
  b.moreBreaks.reverse ++ text

def chomped (b : BlockText) (chomp : Chomp) : List Char :=
  let text := if chomp = .strip then b.text else b.lineBreak.toList ++ b.text
  if chomp = .keep then b.moreBreaks.reverse ++ text else text

end BlockText

def blockLines (d : Dialect) (literal : Bool) (indent : Nat) :
    Nat → BlockText → Cursor → Except ScanError (BlockText × Cursor)
  | 0, b, c => .ok (b, c)
  | fuel + 1, b, c =>
    if c.mark.column == indent && !isEnd c.first then do
      let text := b.joined literal c.first
      let (line, stop) := c.takeWhile d (fun x => !d.isBreakOrEnd x)
      let text := line.reverse ++ text
      if isEnd stop.first then return (⟨text, none, [], isSpace c.first⟩, stop)
      let lead ← readLead d indent (stop.rest.length + 1) ⟨0, [], stop.skipBreak d⟩
      blockLines d literal indent fuel
        ⟨text, some (Dialect.breakText stop.first), lead.breaks, isSpace c.first⟩ lead.stop
    else .ok (b, c)

/-- The chomping and indentation indicators of a block scalar, in either order. -/
def readHeader (d : Dialect) (start : Mark) (c : Cursor) :
    Except ScanError (Chomp × Nat × Cursor) := do
  let chompOf (x : Char) : Option Chomp :=
    if x == '+' then some .keep else if x == '-' then some .strip else none
  let digit (c : Cursor) : Except ScanError (Nat × Cursor) :=
    if c.first.isDigit then
      if c.first == '0' then fail .blockScalarIndent start
      else .ok (hexValue c.first, c.advance d)
    else .ok (0, c)
  match chompOf c.first with
  | some chomp =>
    let (increment, c) ← digit (c.advance d)
    return (chomp, increment, c)
  | none =>
    let (increment, c) ← digit c
    match (if increment = 0 then none else chompOf c.first) with
    | some chomp => return (chomp, increment, c.advance d)
    | none => return (.clip, increment, c)

/-- Reads a block scalar, from its indicator on, inside a block at `parent`. It starts at its first
content line. -/
def readBlock (d : Dialect) (literal : Bool) (parent : Int) (c : Cursor) :
    Except ScanError ScalarRead := do
  let start := c.mark
  let (chomp, increment, c) ← readHeader d start (c.advance d)
  let c := (c.skipWhile d isSpace).skipComment d
  if !d.isBreakOrEnd c.first then fail .blockScalarHeader start
  let c := c.skipBreak d
  let given := if increment = 0 then 0 else (max parent 0).toNat + increment
  let lead ← readLead d given (c.rest.length + 1) ⟨0, [], c⟩
  let indent :=
    if given = 0 then max (max lead.deepest (parent + 1).toNat) 1 else given
  let (b, stop) ← blockLines d literal indent (lead.stop.rest.length + 1)
    ⟨[], none, lead.breaks, false⟩ lead.stop
  return ⟨(b.chomped chomp).reverse, lead.stop.mark, stop, false⟩

end Blueprint.Yaml
