import Blueprint.Lint.Rule

/-!
Physical lines: runs of blank lines, the length of lines, what ends them, and white space before
their end.
-/

namespace Blueprint.Rules

/-- The line ends, last first, that `before` consists of at its end: `\r\n` as long as it lasts,
then `\n`. -/
def countReturns : List Char → Nat × List Char
  | '\n' :: '\r' :: r => let (n, rest) := countReturns r; (n + 1, rest)
  | r => (0, r)

def countFeeds : List Char → Nat × List Char
  | '\n' :: r => let (n, rest) := countFeeds r; (n + 1, rest)
  | r => (0, r)

/-- How many line ends precede a line, and whether nothing precedes those. -/
def lineEndsBefore (before : List Char) : Nat × Bool :=
  let (returns, rest) := countReturns before
  let (feeds, rest) := countFeeds rest
  (returns + feeds, rest.isEmpty)

/-- Whether a blank line is followed by another one that ends in the same way. -/
def blankFollows (rest : List Char) : Bool :=
  (Text.after? ['\n', '\n'] rest).isSome || (Text.after? ['\r', '\n', '\r', '\n'] rest).isSome

/-- The last blank line of a run is reported, with the number of blank lines. A run at the start or
at the end of the document has a limit of its own. -/
def checkBlankLines (c : RuleSettings) (l : Line) : List Problem :=
  if !l.content.isEmpty || l.rest.isEmpty || blankFollows l.rest then []
  else
    let (ends, atStart) := lineEndsBefore l.before
    let count := if atStart then ends + 1 else ends
    let isLast := l.rest == ['\n'] || l.rest == ['\r', '\n']
    let max :=
      if isLast then c.int "max-end" else if atStart then c.int "max-start" else c.int "max"
    if isLast && l.before.isEmpty then []
    else if max < count then
      [{ line := l.number, column := some 1, rule := "empty-lines",
         message :=
          "too many blank lines (" ++ toString count ++ " > " ++ toString max ++ ")",
         fixable := true }]
    else []

def emptyLines : Rule where
  name := "empty-lines"
  description := "Limits the number of consecutive blank lines"
  options := [⟨"max", .int 1⟩, ⟨"max-start", .int 0⟩, ⟨"max-end", .int 1⟩]
  repairs := true
  check := .eachLine checkBlankLines

/-- What a long line consists of apart from its indentation and its comment sign or hyphen. After
these one more character is dropped; it has to be a single byte. -/
def lineBody (content : List Char) : List Char :=
  let dropByte : List Char → List Char
    | c :: r => if c.utf8Size = 1 then r else []
    | [] => []
  match content.dropWhile (· == ' ') with
  | '#' :: r => dropByte (r.dropWhile (· == '#'))
  | '-' :: r => dropByte r
  | body => body

/-- Whether a line by itself is a mapping whose value holds no space. -/
def isSolidMapping (content : List Char) : Bool :=
  let tokens := (Yaml.Scan.ofList .document content).tokens.map (·.token)
  let afterFirst (kind : Yaml.TokenKind) (ts : List Yaml.Token) : List Yaml.Token :=
    (ts.dropWhile (·.kind != kind)).drop 1
  match afterFirst .value (afterFirst .blockMappingStart tokens) with
  | ⟨.scalar .., mark⟩ :: _ => !(content.drop mark.column).contains ' '
  | _ => false

/-- Whether a long line may stay: it cannot be broken. -/
def isSpared (c : RuleSettings) (content : List Char) : Bool :=
  let mappings := c.bool "allow-non-breakable-inline-mappings"
  (c.bool "allow-non-breakable-words" || mappings)
    && content.any (· != ' ')
    && (!(lineBody content).contains ' ' || (mappings && isSolidMapping content))

def checkLength (c : RuleSettings) (l : Line) : List Problem :=
  let max := (c.int "max").toNat
  if l.content.length ≤ max || isSpared c l.content then []
  else
    [{ line := l.number, column := some (max + 1), rule := "line-length",
       message :=
        "line too long (" ++ toString l.content.length ++ " > " ++ toString max
          ++ " characters)" }]

def lineLength : Rule where
  name := "line-length"
  description := "Limits the length of lines"
  options :=
    [⟨"max", .int 120⟩, ⟨"allow-non-breakable-words", .bool true⟩,
     ⟨"allow-non-breakable-inline-mappings", .bool false⟩]
  level := .warning
  check := .eachLine checkLength

/-- What has to end a line, and how messages write it. -/
def lineEnding (c : RuleSettings) : List Char × String :=
  if c.text "type" = "dos" then (['\r', '\n'], "\\r\\n") else (['\n'], "\\n")

def checkLineEnding (c : RuleSettings) (l : Line) : List Problem :=
  let (ending, shown) := lineEnding c
  if l.rest.isEmpty || (Text.after? ending l.rest).isSome then []
  else
    [{ line := l.number, column := some (l.content.length + 1), rule := "new-lines",
       message := "wrong new line character: expected " ++ shown, fixable := true }]

def newLines : Rule where
  name := "new-lines"
  description := "Checks the new line character"
  options := [⟨"type", .oneOf ["unix", "dos", "platform"] "unix"⟩]
  repairs := true
  check := .eachLine checkLineEnding

/-- White space at the end of a line is reported if it starts with a space or a tab. -/
def checkLineEnd (_ : RuleSettings) (l : Line) : List Problem :=
  let kept := Text.trimEnd l.content
  match l.content.drop kept.length with
  | c :: _ =>
    if c == ' ' || c == '\t' then
      [{ line := l.number, column := some (kept.length + 1), rule := "trailing-spaces",
         message := "trailing spaces", fixable := true }]
    else []
  | [] => []

def trailingSpaces : Rule where
  name := "trailing-spaces"
  description := "Forbids trailing spaces"
  repairs := true
  check := .eachLine checkLineEnd

end Blueprint.Rules
