import Blueprint.Lint.Rule
import Blueprint.Lint.Vocabulary

/-!
The inputs of a blueprint: their definitions, the references to them, and inputs that nothing reads.
-/

namespace Blueprint.Rules

def inputProblem (line : Nat) (message : String) : Problem :=
  .onLine "inputs" line message

def inputKeys : List String :=
  ["type", "hidden", "default", "required", "constraints", "description", "display_label"]

/-- The input type that a function yields, if it always yields the same. -/
def resultType? (function : String) : Option String :=
  if function ∈ ["concat", "string_lower", "string_upper", "string_replace"] then some "string"
  else if function = "merge" then some "dict"
  else if function = "string_find" then some "integer"
  else none

def isNumeral (s : String) : Bool :=
  !s.isEmpty && s.toList.all Char.isDigit

def isDecimal (s : String) : Bool :=
  (Number.decimal? s.toList).isSome

/-- The input type that a default value suggests. -/
def suggestedType? (v : Generic) : Option String :=
  match Vocabulary.call? v with
  | some (function, _) => resultType? function
  | none =>
    match v with
    | .text s => if isNumeral s then some "integer" else if isDecimal s then some "float"
      else some "string"
    | .bool _ => some "boolean"
    | .float _ => some "float"
    | .int _ => some "integer"
    | .list _ => some "list"
    | .dict _ => some "dict"
    | .null => none

/-- Whether a value that calls no function belongs to an input type. Types of things outside the
blueprint take any value. -/
def belongs (inputType : String) (v : Generic) : Bool :=
  match inputType, v with
  | "string", .text _ => true
  | "string", _ => false
  | "integer", .int _ => true
  | "integer", .text s => isNumeral s
  | "integer", _ => false
  | "float", .int _ => true
  | "float", .float _ => true
  | "float", .text s => isDecimal s
  | "float", _ => false
  | "boolean", .bool _ => true
  | "boolean", _ => false
  | "list", .list _ => true
  | "list", _ => false
  | "dict", .dict _ => true
  | "dict", _ => false
  | _, _ => true

/-- Whether a default value fits an input type. A whole number is also a float. -/
def defaultFits (inputType : String) (v : Generic) : Bool :=
  match Vocabulary.call? v with
  | some (function, _) =>
    match resultType? function with
    | some kind => kind == inputType || (kind == "integer" && inputType == "float")
    | none => true
  | none => belongs inputType v

def checkInputKeys (line : Nat) (body : Node) : List Problem :=
  let unknown := body.keyTexts.filter (!inputKeys.contains ·)
  if unknown.isEmpty then []
  else
    [inputProblem line
      ("the following keys are invalid for inputs: " ++ ", ".intercalate unknown)]

/-- The default value of an input, unless it is null. -/
def defaultOf (body : Node) : Option Generic :=
  ((body.get? "default").map Node.value).filter (!·.isNull)

def missingTypeMessage (s : Session) (name : String) (body : Node) : String :=
  let suggestion :=
    match (defaultOf body).bind suggestedType? with
    | some kind =>
      if s.suggests "inputs" then "The correct type could be \"" ++ kind ++ "\"." else ""
    | none => ""
  "input \"" ++ name ++ "\" does not specify a type. " ++ suggestion

/-- Checks the type of an input, then its label, then its default; the first fault is reported. -/
def checkTypedInput (s : Session) (name inputType : String) (line : Nat) (body : Node) :
    List Problem :=
  let version := s.context.version.getD "null"
  match Vocabulary.inputTypesOf? version with
  | none =>
    [inputProblem line
      ("Unable to validate input type " ++ inputType ++ " by DSL version: " ++ version
        ++ ". Please update DSL version to one of: " ++ Vocabulary.versionsWithInputTypes ++ ".")]
  | some supported =>
    if !supported.contains inputType then
      [inputProblem line
        ("Input of type " ++ inputType ++ " is not supported by DSL " ++ version ++ ".")]
    else if (body.get? "display_label").isNone then
      [(inputProblem line ("Input " ++ name ++ " is missing a display_label.")).withRepair
        (.addLabel name)]
    else
      match (defaultOf body).filter (!defaultFits inputType ·) with
      | some v =>
        [inputProblem line
          ("input \"" ++ name ++ "\" specifies type " ++ inputType ++ ", but the default "
            ++ v.render ++ " does not match it.")]
      | none => []

def checkDefinedInput (s : Session) (name : String) (line : Nat) (body : Node) : List Problem :=
  if body.entries.isEmpty then []
  else
    checkInputKeys line body ++
      match body.get? "type" with
      | none => [inputProblem line (missingTypeMessage s name body)]
      | some kind =>
        match kind.text? with
        | none => [inputProblem line ("input " ++ name ++ " has an invalid type")]
        | some inputType => checkTypedInput s name inputType line body

def checkInputSection (s : Session) (n : Node) : List Problem :=
  match n.items? with
  | some items =>
    (items.filter (·.text?.isSome)).map fun item =>
      inputProblem item.line "Bad inputs format. Input should be a key not a list item."
  | none =>
    n.namedEntries.flatMap fun (name, key, body) => checkDefinedInput s name key.line body

/-- The input that a reference names: itself, or its first item. -/
def referenceName? (n : Node) : Option String :=
  match n.items? with
  | some items => items.head?.bind Node.text?
  | none => n.text?

def checkInputReference (n : Node) (s : Session) : Findings :=
  match referenceName? n with
  | none => ([], s)
  | some name =>
    if s.context.inputs.contains name then ([], s.withContext (s.context.readInput name))
    else ([inputProblem n.line ("undefined input \"" ++ name ++ "\"")], s)

def checkInputNode (_ : RuleSettings) (v : NodeVisit) (s : Session) : Findings :=
  if v.isSection ["inputs"] then (checkInputSection s v.node, s)
  else if v.key? = some "get_input" then checkInputReference v.node s
  else ([], s)

def finishInputs (_ : RuleSettings) (s : Session) : Findings :=
  (if s.context.readsInputs then
      s.context.unusedInputs.entries.map fun (name, line) =>
        inputProblem line ("input " ++ name ++ " is unused.")
    else [], s)

def inputs : Rule where
  name := "inputs"
  description := "Checks input definitions and references"
  repairs := true
  check := .nodes checkInputNode
  finish := finishInputs

end Blueprint.Rules
