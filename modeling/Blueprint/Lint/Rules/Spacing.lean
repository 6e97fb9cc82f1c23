import Blueprint.Lint.Rule

/-!
Spaces between tokens: inside braces and brackets, around colons and commas, after hyphens.
-/

namespace Blueprint

open Yaml (TokenKind)

/-- Bounds on a number of spaces, each with what is said when it is not kept. -/
structure Spacing where
  min : Option Int := none
  max : Option Int := none
  tooFew : String := ""
  tooMany : String

namespace Spacing

/-- A negative bound is none. -/
def bound (i : Int) : Option Int :=
  if 0 ≤ i then some i else none

def atMost (max : Int) (tooMany : String) : Spacing :=
  { max := bound max, tooMany }

def between (min max : Int) (tooFew tooMany : String) : Spacing :=
  { min := bound min, max := bound max, tooFew, tooMany }

/-- Checks a number of spaces that ends before `column`. -/
def check (b : Spacing) (rule : String) (spaces : Int) (line column : Nat) : List Problem :=
  if b.max.any (· < spaces) then [{ line, column := some column, rule, message := b.tooMany }]
  else if b.min.any (spaces < ·) then
    [{ line, column := some (column + 1), rule, message := b.tooFew }]
  else []

/-- Checks the spaces between a token and the next one on its line. -/
def after (b : Spacing) (rule : String) (l : Lexeme) (next : Option Lexeme) : List Problem :=
  match next with
  | some next =>
    if l.stop.line = next.start.line then
      b.check rule ((next.start.index : Int) - l.stop.index) l.start.line next.start.column
    else []
  | none => []

/-- Checks the spaces between a token and the previous one on its line. -/
def before (b : Spacing) (rule : String) (l : Lexeme) (prev : Option Lexeme) : List Problem :=
  match prev with
  | some prev =>
    let endsLine : Bool := prev.stop.column = 0 ∧ 0 < prev.stop.index
    if prev.stop.line = l.start.line ∧ !endsLine then
      b.check rule ((l.start.index : Int) - prev.stop.index) l.start.line l.start.column
    else []
  | none => []

end Spacing

/-- The tokens around a flow collection and what it is called. -/
structure Delimiters where
  rule : String
  opening : TokenKind
  closing : TokenKind

namespace Delimiters

def braces : Delimiters := ⟨"braces", .flowMappingStart, .flowMappingEnd⟩
def brackets : Delimiters := ⟨"brackets", .flowSequenceStart, .flowSequenceEnd⟩

def options : List RuleOption :=
  [⟨"min-spaces-inside", .int 0⟩, ⟨"max-spaces-inside", .int 1⟩,
   ⟨"min-spaces-inside-empty", .int (-1)⟩, ⟨"max-spaces-inside-empty", .int (-1)⟩]

/-- A bound for empty collections; -1 stands for the one that others have. -/
def boundInside (c : RuleSettings) (name : String) (empty : Bool) : Int :=
  let special := c.int (name ++ "-empty")
  if empty && special != -1 then special else c.int name

def spacing (d : Delimiters) (c : RuleSettings) (empty : Bool) : Spacing :=
  let noun := (if empty then "empty " else "") ++ d.rule
  .between (boundInside c "min-spaces-inside" empty) (boundInside c "max-spaces-inside" empty)
    ("too few spaces inside " ++ noun) ("too many spaces inside " ++ noun)

/-- The space of an empty collection is checked once, at its start. -/
def problems (d : Delimiters) (c : RuleSettings) (t : TokenView) : List Problem :=
  if t.curr.kind = d.opening then
    (d.spacing c (t.nextKind == some d.closing)).after d.rule t.curr t.next
  else if t.curr.kind = d.closing ∧ t.prevKind ≠ some d.opening then
    (d.spacing c false).before d.rule t.curr t.prev
  else []

def check (d : Delimiters) (c : RuleSettings) (t : TokenView) : List Problem :=
  (d.problems c t).map .asFixable

end Delimiters

namespace Rules

def braces : Rule where
  name := "braces"
  description := "Checks the number of spaces inside \x7b \x7d flow mappings"
  options := Delimiters.options
  repairs := true
  check := .eachToken Delimiters.braces.check

def brackets : Rule where
  name := "brackets"
  description := "Checks the number of spaces inside [ ] flow sequences"
  options := Delimiters.options
  repairs := true
  check := .eachToken Delimiters.brackets.check

/-- A colon after an alias needs the space before it. -/
def followsAlias (t : TokenView) : Bool :=
  match t.prev with
  | some prev =>
    (match prev.kind with | .alias _ => true | _ => false)
      && t.curr.start.index == prev.stop.index + 1
  | none => false

def colonProblems (c : RuleSettings) (t : TokenView) : List Problem :=
  match t.curr.kind with
  | .value =>
    if followsAlias t then []
    else
      (Spacing.atMost (c.int "max-spaces-before") "too many spaces before colon").before "colons"
          t.curr t.prev
        ++ (Spacing.atMost (c.int "max-spaces-after") "too many spaces after colon").after "colons"
          t.curr t.next
  | .key =>
    if t.curr.start.index < t.curr.stop.index then
      (Spacing.atMost (c.int "max-spaces-after") "too many spaces after question mark").after
        "colons" t.curr t.next
    else []
  | _ => []

def colons : Rule where
  name := "colons"
  description := "Checks the number of spaces before and after colons"
  options := [⟨"max-spaces-before", .int 0⟩, ⟨"max-spaces-after", .int 1⟩]
  repairs := true
  check := .eachToken fun c t => (colonProblems c t).map .asFixable

/-- A comma on a later line than the token before it stands too far from it. -/
def beforeComma (c : RuleSettings) (t : TokenView) : List Problem :=
  let max := c.int "max-spaces-before"
  let message := "too many spaces before comma"
  if max ≠ -1 ∧ t.prev.any (·.stop.line < t.curr.start.line) then
    [{ line := t.curr.start.line, column := some (Nat.max t.curr.start.column 1),
       rule := "commas", message }]
  else (Spacing.atMost max message).before "commas" t.curr t.prev

def commaProblems (c : RuleSettings) (t : TokenView) : List Problem :=
  if t.curr.kind = .flowEntry then
    beforeComma c t
      ++ (Spacing.between (c.int "min-spaces-after") (c.int "max-spaces-after")
          "too few spaces after comma" "too many spaces after comma").after "commas" t.curr t.next
  else []

def commas : Rule where
  name := "commas"
  description := "Checks the number of spaces before and after commas"
  options :=
    [⟨"max-spaces-before", .int 0⟩, ⟨"min-spaces-after", .int 1⟩, ⟨"max-spaces-after", .int 1⟩]
  repairs := true
  check := .eachToken fun c t => (commaProblems c t).map .asFixable

def hyphenProblems (c : RuleSettings) (t : TokenView) : List Problem :=
  if t.curr.kind = .blockEntry then
    (Spacing.atMost (c.int "max-spaces-after") "too many spaces after hyphen").after "hyphens"
      t.curr t.next
  else []

def hyphens : Rule where
  name := "hyphens"
  description := "Checks the number of spaces after hyphens"
  options := [⟨"max-spaces-after", .int 1⟩]
  check := .eachToken hyphenProblems

end Rules

end Blueprint
