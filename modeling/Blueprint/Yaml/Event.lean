import Blueprint.Yaml.Scanner

/-!
From tokens to the events of a document: scalars, aliases, and the starts and ends of collections.
-/

namespace Blueprint.Yaml

inductive EventKind where
  | streamEnd
  | documentStart
  | documentEnd
  | alias (name : String)
  | scalar (text : String) (style : ScalarStyle) (anchor : Option String) (tag : Option Tag)
  | sequenceStart (anchor : Option String) (tag : Option Tag)
  | sequenceEnd
  | mappingStart (anchor : Option String) (tag : Option Tag)
  | mappingEnd
deriving DecidableEq

structure Event where
  kind : EventKind
  mark : Mark
deriving DecidableEq

/-- What the parser expects next. -/
inductive Expect where
  | document (implicit : Bool)
  | documentContent
  | documentEnd
  | blockNode
  | blockSequence (first : Bool)
  | indentlessSequence
  | blockMappingKey (first : Bool)
  | blockMappingValue
  | flowSequence (first : Bool)
  | flowPairKey
  | flowPairValue
  | flowPairEnd
  | flowMappingKey (first : Bool)
  | flowMappingValue (empty : Bool)
  | nothing

structure Parser where
  tokens : List HandedToken
  /-- What is raised when a token is asked for after the last one. -/
  ending : ScanError
  /-- The place that had been read up to when a token was last looked at. -/
  reached : Mark
  expect : Expect
  pending : List Expect
  /-- The names of the anchors met in this document. -/
  anchors : List String
  /-- The tag handles declared for this document. -/
  handles : List (String × Uri)

namespace Parser

def ofScan (scan : Scan) : Parser where
  tokens := scan.tokens
  ending :=
    scan.error.getD ⟨.endOfTokens, (scan.tokens.getLast?.map (·.reached)).getD ⟨0, 1, 0⟩⟩
  reached := ⟨0, 1, 0⟩
  expect := .document true
  pending := []
  anchors := []
  handles := []

/-- The next token, which stays in place. -/
def look (p : Parser) : Except ScanError (Token × Parser) :=
  match p.tokens with
  | [] => .error p.ending
  | t :: _ => .ok (t.token, { p with reached := t.reached })

def drop (p : Parser) : Parser :=
  { p with tokens := p.tokens.drop 1 }

def goto (p : Parser) (expect : Expect) : Parser :=
  { p with expect }

/-- Returns to what was expected around the node just read. -/
def back (p : Parser) : Parser :=
  match p.pending with
  | [] => { p with expect := .nothing }
  | e :: r => { p with expect := e, pending := r }

def after (p : Parser) (expect : Expect) : Parser :=
  { p with pending := expect :: p.pending }

abbrev Step := Except ScanError (Event × Parser)

def emit (kind : EventKind) (mark : Mark) (p : Parser) : Step :=
  .ok (⟨kind, mark⟩, p)

/-- A missing node stands for a null value, which a document cannot tell from a tilde. -/
def emitEmpty (d : Dialect) (mark : Mark) (p : Parser) : Step :=
  emit (.scalar (if d.strict then "" else "~") .plain none none) mark p

/-- The version and tag directives before a document. Settings check them. -/
def readDirectives (d : Dialect) :
    Nat → Bool → List (String × Uri) → Parser → Except ScanError Parser
  | 0, _, handles, p => .ok { p with handles }
  | fuel + 1, versioned, handles, p => do
    let (t, p) ← p.look
    match t.kind with
    | .versionDirective major minor =>
      if d.strict && versioned then fail .directiveRepeated t.mark
      if d.strict && (major != 1 || (minor != 1 && minor != 2)) then
        fail .versionUnsupported t.mark
      readDirectives d fuel true handles p.drop
    | .tagDirective handle start =>
      if d.strict && (handles.lookup handle).isSome then fail .directiveRepeated t.mark
      readDirectives d fuel versioned ((handle, start) :: handles) p.drop
    | _ => return { p with handles }

def startDocument (d : Dialect) (p : Parser) : Except ScanError Parser := do
  let p ← p.readDirectives d (p.tokens.length + 1) false []
  return { p with anchors := [] }

def explicitDocument (d : Dialect) (p : Parser) : Step := do
  let p ← p.startDocument d
  let (t, p) ← p.look
  if t.kind = .documentStart then
    emit .documentStart t.mark ((p.drop.after .documentEnd).goto .documentContent)
  else fail .documentStart t.mark

def dropDocumentEnds : Nat → Parser → Except ScanError Parser
  | 0, p => .ok p
  | fuel + 1, p => do
    let (t, p) ← p.look
    if t.kind = .documentEnd then dropDocumentEnds fuel p.drop else return p

def document (d : Dialect) (implicit : Bool) (p : Parser) : Step := do
  let p ← if implicit then pure p else p.dropDocumentEnds (p.tokens.length + 1)
  let (t, p) ← p.look
  match t.kind with
  | .streamEnd => emit .streamEnd t.mark (p.drop.goto .nothing)
  | .versionDirective .. | .tagDirective .. | .documentStart => p.explicitDocument d
  | _ =>
    if implicit then
      let p ← p.startDocument d
      emit .documentStart t.mark ((p.after .documentEnd).goto .blockNode)
    else p.explicitDocument d

/-- In settings a handle that is not declared is refused, the two standard ones apart. -/
def checkTag (d : Dialect) (p : Parser) (tag : Tag) (mark : Mark) : Except ScanError Tag :=
  if !d.strict || tag.handle = "" then .ok tag
  else
    match p.handles.lookup tag.handle with
    | some start => .ok ⟨"", start ++ tag.suffix⟩
    | none =>
      if tag.handle = "!" then .ok ⟨"", ⟨"!", false⟩ ++ tag.suffix⟩
      else if tag.handle = "!!" then .ok ⟨"", ⟨"tag:yaml.org,2002:", false⟩ ++ tag.suffix⟩
      else fail .tagHandleUndefined mark

/-- The anchor and the tag before a node, in either order. -/
def properties (d : Dialect) (p : Parser) :
    Except ScanError (Option String × Option Tag × Parser) := do
  let register (p : Parser) (name : String) : Parser :=
    { p.drop with anchors := name :: p.anchors }
  let (t, p) ← p.look
  match t.kind with
  | .anchor name =>
    let (t, p) ← (register p name).look
    match t.kind with
    | .tag tag => return (some name, some (← p.checkTag d tag t.mark), p.drop)
    | _ => return (some name, none, p)
  | .tag tag =>
    let tag ← p.checkTag d tag t.mark
    let (t, p) ← p.drop.look
    match t.kind with
    | .anchor name => return (some name, some tag, register p name)
    | _ => return (none, some tag, p)
  | _ => return (none, none, p)

/-- Reads a node at its token, after its properties. -/
def content (block indentless : Bool) (anchor : Option String) (tag : Option Tag) (t : Token)
    (p : Parser) : Step :=
  match t.kind, block, indentless with
  | .blockEntry, _, true =>
    emit (.sequenceStart anchor tag) t.mark (p.goto .indentlessSequence)
  | .scalar text style, _, _ =>
    emit (.scalar text style anchor tag) t.mark p.drop.back
  | .flowSequenceStart, _, _ =>
    emit (.sequenceStart anchor tag) t.mark (p.goto (.flowSequence true))
  | .flowMappingStart, _, _ =>
    emit (.mappingStart anchor tag) t.mark (p.goto (.flowMappingKey true))
  | .blockSequenceStart, true, _ =>
    emit (.sequenceStart anchor tag) t.mark (p.goto (.blockSequence true))
  | .blockMappingStart, true, _ =>
    emit (.mappingStart anchor tag) t.mark (p.goto (.blockMappingKey true))
  | _, _, _ =>
    if anchor.isSome || tag.isSome then
      emit (.scalar "" .plain anchor tag) t.mark p.back
    else fail .nodeContent t.mark

def node (d : Dialect) (block indentless : Bool) (p : Parser) : Step := do
  let (t, p) ← p.look
  match t.kind with
  | .alias name =>
    if p.anchors.contains name then emit (.alias name) t.mark p.drop.back
    else fail .unknownAnchor t.mark
  | _ =>
    let (anchor, tag, p) ← p.properties d
    let (t, p) ← p.look
    content block indentless anchor tag t p

def documentContent (d : Dialect) (p : Parser) : Step := do
  let (t, p) ← p.look
  match t.kind with
  | .versionDirective .. | .tagDirective .. | .documentStart | .documentEnd | .streamEnd =>
    emitEmpty d t.mark p.back
  | _ => p.node d true false

def documentEnd (p : Parser) : Step := do
  let (t, p) ← p.look
  let p := if t.kind = .documentEnd then p.drop else p
  emit .documentEnd t.mark (p.goto (.document false))

/-- Whether a key or value of a block mapping is missing before this token. -/
def endsBlockPart : TokenKind → Bool
  | .key | .value | .blockEnd => true
  | _ => false

def blockMappingKey (d : Dialect) (first : Bool) (p : Parser) : Step := do
  let p ← if first then do let (_, p) ← p.look; pure p.drop else pure p
  let (t, p) ← p.look
  match t.kind with
  | .key =>
    let (t, p) ← p.drop.look
    if endsBlockPart t.kind then emitEmpty d t.mark (p.goto .blockMappingValue)
    else (p.after .blockMappingValue).node d true true
  | .blockEnd => emit .mappingEnd t.mark p.drop.back
  | .value =>
    if d.strict then fail .mappingKey t.mark
    else emitEmpty d t.mark (p.goto .blockMappingValue)
  | _ => fail .mappingKey t.mark

def blockMappingValue (d : Dialect) (p : Parser) : Step := do
  let (t, p) ← p.look
  if t.kind = .value then
    let (t, p) ← p.drop.look
    if endsBlockPart t.kind then emitEmpty d t.mark (p.goto (.blockMappingKey false))
    else (p.after (.blockMappingKey false)).node d true true
  else emitEmpty d t.mark (p.goto (.blockMappingKey false))

def blockSequence (d : Dialect) (first : Bool) (p : Parser) : Step := do
  let p ← if first then do let (_, p) ← p.look; pure p.drop else pure p
  let (t, p) ← p.look
  match t.kind with
  | .blockEnd => emit .sequenceEnd t.mark p.drop.back
  | .blockEntry =>
    let (t, p) ← p.drop.look
    match t.kind with
    | .blockEntry | .blockEnd => emitEmpty d t.mark (p.goto (.blockSequence false))
    | _ => (p.after (.blockSequence false)).node d true false
  | _ => fail .sequenceEntry t.mark

def indentlessSequence (d : Dialect) (p : Parser) : Step := do
  let (t, p) ← p.look
  if t.kind ≠ .blockEntry then emit .sequenceEnd t.mark p.back
  else
    let (t, p) ← p.drop.look
    if t.kind = .blockEntry || endsBlockPart t.kind then
      emitEmpty d t.mark (p.goto .indentlessSequence)
    else (p.after .indentlessSequence).node d true false

def flowSequence (d : Dialect) (first : Bool) (p : Parser) : Step := do
  let p ← if first then do let (_, p) ← p.look; pure p.drop else pure p
  let (t, p) ← p.look
  if t.kind = .flowSequenceEnd then emit .sequenceEnd t.mark p.drop.back
  else
    let p ←
      if first then pure p
      else if t.kind = .flowEntry then pure p.drop
      else fail .flowSequenceEnd t.mark
    let (t, p) ← p.look
    match t.kind with
    | .flowSequenceEnd => emit .sequenceEnd t.mark p.drop.back
    | .key => emit (.mappingStart none none) t.mark (p.drop.goto .flowPairKey)
    | _ => (p.after (.flowSequence false)).node d false false

def flowPairKey (d : Dialect) (p : Parser) : Step := do
  let (t, p) ← p.look
  match t.kind with
  | .value | .flowEntry | .flowSequenceEnd => emitEmpty d t.mark (p.drop.goto .flowPairValue)
  | _ => (p.after .flowPairValue).node d false false

def flowPairValue (d : Dialect) (p : Parser) : Step := do
  let (t, p) ← p.look
  if t.kind = .value then
    let (t, p) ← p.drop.look
    match t.kind with
    | .flowEntry | .flowSequenceEnd => emitEmpty d t.mark (p.goto .flowPairEnd)
    | _ => (p.after .flowPairEnd).node d false false
  else emitEmpty d t.mark (p.goto .flowPairEnd)

/-- A pair inside a flow sequence has no token for its end. -/
def flowPairEnd (p : Parser) : Step :=
  emit .mappingEnd p.reached (p.goto (.flowSequence false))

def flowMappingKey (d : Dialect) (first : Bool) (p : Parser) : Step := do
  let p ← if first then do let (_, p) ← p.look; pure p.drop else pure p
  let (t, p) ← p.look
  if t.kind = .flowMappingEnd then emit .mappingEnd t.mark p.drop.back
  else
    let stop := t.mark
    let p ←
      if first then pure p
      else if t.kind = .flowEntry then pure p.drop
      else fail .flowMappingEnd t.mark
    let (t, p) ← p.look
    match t.kind with
    | .key =>
      let (t, p) ← p.drop.look
      match t.kind with
      | .value | .flowEntry | .flowMappingEnd =>
        emitEmpty d t.mark (p.goto (.flowMappingValue false))
      | _ => (p.after (.flowMappingValue false)).node d false false
    | .flowMappingEnd => emit .mappingEnd stop p.drop.back
    | .value =>
      if d.strict then fail .nodeContent t.mark
      else emitEmpty d t.mark (p.goto (.flowMappingValue false))
    | _ => (p.after (.flowMappingValue true)).node d false false

def flowMappingValue (d : Dialect) (empty : Bool) (p : Parser) : Step := do
  let (t, p) ← p.look
  let next : Expect := .flowMappingKey false
  if empty || t.kind ≠ .value then emitEmpty d t.mark (p.goto next)
  else
    let colon := t.mark
    let (t, p) ← p.drop.look
    match t.kind with
    | .flowEntry | .flowMappingEnd => emitEmpty d colon (p.goto next)
    | _ => (p.after next).node d false false

def step (d : Dialect) (p : Parser) : Step :=
  match p.expect with
  | .document implicit => p.document d implicit
  | .documentContent => p.documentContent d
  | .documentEnd => p.documentEnd
  | .blockNode => p.node d true false
  | .blockSequence first => p.blockSequence d first
  | .indentlessSequence => p.indentlessSequence d
  | .blockMappingKey first => p.blockMappingKey d first
  | .blockMappingValue => p.blockMappingValue d
  | .flowSequence first => p.flowSequence d first
  | .flowPairKey => p.flowPairKey d
  | .flowPairValue => p.flowPairValue d
  | .flowPairEnd => p.flowPairEnd
  | .flowMappingKey first => p.flowMappingKey d first
  | .flowMappingValue empty => p.flowMappingValue d empty
  | .nothing => .error p.ending

/-- The events up to the first one of a kind in `stop`, with that one. -/
def run (d : Dialect) (stop : EventKind → Bool) : Nat → Parser → Except ScanError (List Event)
  | 0, _ => .ok []
  | fuel + 1, p => do
    let (e, p) ← p.step d
    if stop e.kind then return [e] else return e :: (← run d stop fuel p)

/-- Takes the start of the stream. -/
def open? (p : Parser) : Except ScanError Parser := do
  let (t, p) ← p.look
  if t.kind = .streamStart then return p.drop else fail .streamStart t.mark

end Parser

namespace Event

/-- A token gives rise to two events at most, its end of a collection apart. -/
def eventLimit (scan : Scan) : Nat :=
  6 * scan.tokens.length + 16

/-- The events of the first document, up to its end. A text without a document has the end of the
stream only. -/
def ofFirstDocument (d : Dialect) (scan : Scan) : Except ScanError (List Event) := do
  let p ← (Parser.ofScan scan).open?
  p.run d (fun k => k == .documentEnd || k == .streamEnd) (eventLimit scan)

/-- The events of every document. -/
def ofStream (d : Dialect) (scan : Scan) : Except ScanError (List Event) := do
  let p ← (Parser.ofScan scan).open?
  p.run d (· == .streamEnd) (eventLimit scan)

end Event

end Blueprint.Yaml
