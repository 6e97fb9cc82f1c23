import Blueprint.Yaml.Scalar
import Blueprint.Yaml.Tag

/-!
From characters to tokens. A token that may turn out to be a key is held back until the colon after
it, or the end of its line, has been seen; then the marks of the key and of the mapping it opens are
put before it.
-/

namespace Blueprint.Yaml

/-- A place where a key may have started. -/
structure SimpleKey where
  possible : Bool
  required : Bool
  /-- The number of the token that the key would start with. -/
  token : Nat
  mark : Mark

def SimpleKey.none : SimpleKey := ⟨false, false, 0, ⟨0, 0, 0⟩⟩

structure Scanner where
  /-- The length of the text. -/
  size : Nat
  here : Cursor
  /-- Tokens that have been read and not handed out. -/
  queue : List Token
  /-- How many tokens have been handed out. -/
  taken : Nat
  started : Bool
  keyAllowed : Bool
  /-- One for the block context and one for each open flow collection, the innermost first. -/
  keys : List SimpleKey
  indent : Int
  indents : List Int
  flow : Nat
  /-- Where a colon may follow a quoted key at once. -/
  adjacentValue : Nat

namespace Scanner

def ofList (text : List Char) : Scanner :=
  ⟨text.length, Cursor.ofList text, [], 0, false, true, [], -1, [], 0, 0⟩

/-- A document nests flow collections to this depth. -/
def flowLimit : Nat := 255

/-- How far a key may reach before its colon. -/
def keyLimit : Nat := 1024

def mark (s : Scanner) : Mark := s.here.mark

def push (s : Scanner) (kind : TokenKind) (mark : Mark) : Scanner :=
  { s with queue := s.queue ++ [⟨kind, mark⟩] }

/-- Puts a token before the one with the given number. -/
def insertAt (s : Scanner) (number : Nat) (kind : TokenKind) (mark : Mark) : Scanner :=
  let place := number - s.taken
  { s with queue := s.queue.take place ++ ⟨kind, mark⟩ :: s.queue.drop place }

/-- Gives up keys whose line has ended or that have become too long. -/
def dropStaleKeys (s : Scanner) : Except ScanError Scanner := do
  let stale (k : SimpleKey) : Bool :=
    k.possible && (k.mark.line < s.mark.line || k.mark.index + keyLimit < s.mark.index)
  if s.keys.any (fun k => stale k && k.required) then fail .staleKey s.mark
  return { s with keys := s.keys.map fun k => if stale k then { k with possible := false } else k }

def dropKey (s : Scanner) : Except ScanError Scanner :=
  match s.keys with
  | [] => .ok s
  | k :: r =>
    if k.possible && k.required then fail .lostKey s.mark
    else .ok { s with keys := { k with possible := false } :: r }

/-- Records that a key may start here. A key at the indentation of its block is required: in
settings outside flow collections, in documents inside them. -/
def saveKey (d : Dialect) (s : Scanner) : Except ScanError Scanner := do
  if !s.keyAllowed then return s
  let required := (if d.strict then s.flow == 0 else 0 < s.flow) && s.indent == s.mark.column
  let k : SimpleKey := ⟨true, required, s.taken + s.queue.length, s.mark⟩
  let s ← s.dropKey
  return { s with keys := k :: s.keys.drop 1 }

/-- Opens a block collection at a deeper column; `number` tells before which token. -/
def openBlock (s : Scanner) (column : Nat) (number : Option Nat) (kind : TokenKind) (mark : Mark) :
    Scanner :=
  if 0 < s.flow ∨ (column : Int) ≤ s.indent then s
  else
    let s := { s with indents := s.indent :: s.indents, indent := column }
    match number with
    | some n => s.insertAt n kind mark
    | none => s.push kind mark

def closeFrom (column : Int) : List Int → Scanner → Scanner
  | [], s => s
  | outer :: r, s =>
    if column < s.indent then
      closeFrom column r { s.push .blockEnd s.mark with indent := outer, indents := r }
    else s

/-- Closes the block collections that are indented deeper than `column`. -/
def closeBlocks (s : Scanner) (column : Int) : Scanner :=
  if 0 < s.flow then s else closeFrom column s.indents s

/-- Passes over white space, line breaks and comments. A tab may stand where no key can start, and
in settings a byte order mark at the start of a line. -/
def toToken (d : Dialect) : Nat → Scanner → Scanner
  | 0, s => s
  | fuel + 1, s =>
    let c := s.here.first
    if c == ' ' || (c == '\t' && (0 < s.flow || !s.keyAllowed)) then
      toToken d fuel { s with here := s.here.advance d }
    else if d.isBreak c then
      toToken d fuel
        { s with here := s.here.skipBreak d, keyAllowed := s.keyAllowed || s.flow == 0 }
    else if c == '#' then toToken d fuel { s with here := s.here.skipComment d }
    else if d.strict && c == '\ufeff' && s.mark.column == 0 then
      toToken d fuel { s with here := s.here.advance d }
    else s

def fetchStreamEnd (s : Scanner) : Except ScanError Scanner := do
  let m := s.mark
  let m := if m.column = 0 then m else ⟨m.index, m.line + 1, 0⟩
  let s := { s with here := { s.here with mark := m } }
  let s ← (s.closeBlocks (-1)).dropKey
  return { s with keyAllowed := false }.push .streamEnd s.mark

def fetchDirective (d : Dialect) (s : Scanner) : Except ScanError Scanner := do
  let s ← (s.closeBlocks (-1)).dropKey
  let (kind, stop) ← readDirective d s.here
  return { s.push kind s.mark with here := stop, keyAllowed := false }

def fetchIndicator (d : Dialect) (kind : TokenKind) (s : Scanner) : Except ScanError Scanner := do
  let s ← (s.closeBlocks (-1)).dropKey
  return { s.push kind s.mark with here := s.here.skip d 3, keyAllowed := false }

def fetchFlowStart (d : Dialect) (kind : TokenKind) (s : Scanner) : Except ScanError Scanner := do
  let s ← s.saveKey d
  if !d.strict && s.flow == flowLimit then fail .flowTooDeep s.mark
  return { s.push kind s.mark with
    keys := SimpleKey.none :: s.keys
    flow := s.flow + 1
    keyAllowed := true
    here := s.here.advance d }

def fetchFlowEnd (d : Dialect) (kind : TokenKind) (s : Scanner) : Except ScanError Scanner := do
  let s ← s.dropKey
  return { s.push kind s.mark with
    keys := if 0 < s.flow then s.keys.drop 1 else s.keys
    flow := s.flow - 1
    keyAllowed := false
    here := s.here.advance d }

def fetchFlowEntry (d : Dialect) (s : Scanner) : Except ScanError Scanner := do
  let s ← s.dropKey
  return { s.push .flowEntry s.mark with keyAllowed := true, here := s.here.advance d }

/-- In settings an entry inside a flow collection is left to the parser. -/
def fetchBlockEntry (d : Dialect) (s : Scanner) : Except ScanError Scanner := do
  if s.flow == 0 && !s.keyAllowed then fail .entryNotAllowed s.mark
  if 0 < s.flow && !d.strict then fail .entryInFlow s.mark
  let s ← (s.openBlock s.mark.column none .blockSequenceStart s.mark).dropKey
  return { s.push .blockEntry s.mark with keyAllowed := true, here := s.here.advance d }

def fetchKey (d : Dialect) (s : Scanner) : Except ScanError Scanner := do
  if s.flow == 0 && !s.keyAllowed then fail .keyNotAllowed s.mark
  let s ← (s.openBlock s.mark.column none .blockMappingStart s.mark).dropKey
  return { s.push .key s.mark with keyAllowed := s.flow == 0, here := s.here.advance d }

/-- A colon turns what a saved key points at into a key. -/
def fetchValue (d : Dialect) (s : Scanner) : Except ScanError Scanner := do
  let start := s.mark
  let s ←
    match s.keys with
    | [] => pure s
    | k :: r =>
      if k.possible then
        let s := s.insertAt k.token .key k.mark
        let s := s.openBlock k.mark.column (some k.token) .blockMappingStart start
        pure { s with keys := { k with possible := false } :: r, keyAllowed := false }
      else if s.flow == 0 then
        if !s.keyAllowed then fail .valueNotAllowed start
        else pure (s.openBlock start.column none .blockMappingStart start)
      else pure { s with keyAllowed := false }
  return { s.push .value start with here := s.here.advance d }

def fetchAnchor (d : Dialect) (kind : String → TokenKind) (s : Scanner) :
    Except ScanError Scanner := do
  let s ← s.saveKey d
  let (name, stop) ← readAnchor d s.here
  return { s.push (kind name) s.mark with here := stop, keyAllowed := false }

def fetchTag (d : Dialect) (s : Scanner) : Except ScanError Scanner := do
  let s ← s.saveKey d
  let (tag, stop) ← readTag d (0 < s.flow) s.here
  return { s.push (.tag tag) s.mark with here := stop, keyAllowed := false }

def pushScalar (s : Scanner) (style : ScalarStyle) (r : ScalarRead) : Scanner :=
  { s.push (.scalar (String.ofList r.text) style) r.start with here := r.stop }

/-- Only in documents may a block scalar be a key. -/
def fetchBlockScalar (d : Dialect) (literal : Bool) (s : Scanner) : Except ScanError Scanner := do
  let s ← if d.strict then s.dropKey else s.saveKey d
  let r ← readBlock d literal s.indent s.here
  return { s.pushScalar (if literal then .literal else .folded) r with keyAllowed := true }

def fetchQuoted (d : Dialect) (single : Bool) (s : Scanner) : Except ScanError Scanner := do
  let s ← s.saveKey d
  let r ← readQuoted d single s.here
  return { s.pushScalar (if single then .singleQuoted else .doubleQuoted) r with
    keyAllowed := false
    adjacentValue := r.stop.mark.index }

def fetchPlain (d : Dialect) (s : Scanner) : Except ScanError Scanner := do
  let s ← s.saveKey d
  let r ← readPlain d (0 < s.flow) (s.indent + 1) s.here
  return { s.pushScalar .plain r with keyAllowed := r.atLineStart }

/-- Whether a colon here separates a key from its value. -/
def valueStarts (d : Dialect) (s : Scanner) : Bool :=
  let next := s.here.ahead 1
  d.isGap next
    || (0 < s.flow && (d.strict || isFlowIndicator next || s.mark.index == s.adjacentValue))

def keyStarts (d : Dialect) (s : Scanner) : Bool :=
  d.isGap (s.here.ahead 1) || (d.strict && 0 < s.flow)

/-- Whether a plain scalar may start with `c`, which is not an indicator here. Documents refuse
three characters only. -/
def plainStarts (d : Dialect) (s : Scanner) (c : Char) : Bool :=
  if d.strict then
    !(d.isGap c || "-?:,[]\x7b\x7d#&*!|>'\"%@\x60".toList.contains c)
      || (c == '-' && !isSpace (s.here.ahead 1))
      || (s.flow == 0 && (c == '?' || c == ':') && !d.isGap (s.here.ahead 1))
  else !(c == '%' || c == '@' || c == '\x60')

/-- Reads the token that starts here. -/
def fetchHere (d : Dialect) (s : Scanner) : Except ScanError Scanner :=
  let c := s.here.first
  let next := s.here.ahead 1
  if isEnd c then s.fetchStreamEnd
  else if s.mark.column == 0 && c == '%' then s.fetchDirective d
  else if s.here.atIndicator d then
    s.fetchIndicator d (if c == '-' then .documentStart else .documentEnd)
  else match c with
  | '[' => s.fetchFlowStart d .flowSequenceStart
  | '{' => s.fetchFlowStart d .flowMappingStart
  | ']' => s.fetchFlowEnd d .flowSequenceEnd
  | '}' => s.fetchFlowEnd d .flowMappingEnd
  | ',' => s.fetchFlowEntry d
  | '*' => s.fetchAnchor d .alias
  | '&' => s.fetchAnchor d .anchor
  | '!' => s.fetchTag d
  | '\'' => s.fetchQuoted d true
  | '"' => s.fetchQuoted d false
  | _ =>
    if c == '-' && d.isGap next then s.fetchBlockEntry d
    else if c == '?' && s.keyStarts d then s.fetchKey d
    else if c == ':' && s.valueStarts d then s.fetchValue d
    else if c == '|' && s.flow == 0 then s.fetchBlockScalar d true
    else if c == '>' && s.flow == 0 then s.fetchBlockScalar d false
    else if s.plainStarts d c then s.fetchPlain d
    else fail (.unexpectedCharacter c) s.mark

/-- Reads one more token, and the ends of blocks before it. -/
def fetch (d : Dialect) (s : Scanner) : Except ScanError Scanner := do
  if !s.started then
    return { s.push .streamStart s.mark with started := true, keys := [SimpleKey.none] }
  let s ← (s.toToken d (s.size + 1)).dropStaleKeys
  (s.closeBlocks s.mark.column).fetchHere d

/-- Whether the first waiting token may still turn out to be a key. -/
def awaitsKey (s : Scanner) : Bool :=
  s.keys.any fun k => k.possible && k.token == s.taken

/-- Reads until the first waiting token is settled; `none` if the fuel does not last that long. -/
def settle (d : Dialect) : Nat → Scanner → Except ScanError (Option Scanner)
  | 0, _ => .ok none
  | fuel + 1, s => do
    if s.queue.isEmpty then
      let s ← s.fetch d
      settle d fuel s
    else
      let s ← s.dropStaleKeys
      if s.awaitsKey then
        let s ← s.fetch d
        settle d fuel s
      else return some s

/-- Hands out the next token. -/
def next? (d : Dialect) (s : Scanner) : Except ScanError (Option (Token × Scanner)) := do
  match ← s.settle d (s.size + 3) with
  | none => return none
  | some s =>
    match s.queue with
    | [] => return none
    | t :: r => return some (t, { s with queue := r, taken := s.taken + 1 })

end Scanner

/-- A token and the place that had been read up to when it was handed out. -/
structure HandedToken where
  token : Token
  reached : Mark

/-- The tokens of a text, up to its end or to the first fault. Tokens that wait for a key to be
settled are lost with the fault. -/
structure Scan where
  tokens : List HandedToken
  error : Option ScanError

namespace Scan

def fromScanner (d : Dialect) : Nat → Scanner → Scan
  | 0, _ => ⟨[], none⟩
  | fuel + 1, s =>
    match s.next? d with
    | .error e => ⟨[], some e⟩
    | .ok none => ⟨[], none⟩
    | .ok (some (t, s)) =>
      if t.kind = .streamEnd then ⟨[⟨t, s.mark⟩], none⟩
      else
        let later := fromScanner d fuel s
        ⟨⟨t, s.mark⟩ :: later.tokens, later.error⟩

/-- A character gives rise to four tokens at most. -/
def ofList (d : Dialect) (text : List Char) : Scan :=
  fromScanner d (4 * text.length + 8) (Scanner.ofList text)

end Scan

end Blueprint.Yaml
