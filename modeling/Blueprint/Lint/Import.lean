import Blueprint.Number.Integer
import Blueprint.Text.Blank
import Blueprint.Text.Cut
import Blueprint.Text.Digit

/-!
References to imported documents: web addresses, plugins, and paths of files.
-/

namespace Blueprint

/-- The parts of a reference. A reference without a scheme is a path. -/
structure ImportReference where
  scheme : String
  path : String
  query : String
deriving DecidableEq

namespace ImportReference

def isSchemeChar (c : Char) : Bool :=
  c.isAlphanum || c == '+' || c == '.' || c == '-'

/-- The scheme of a reference, a word before a colon, and what follows the colon. -/
def scheme? (s : List Char) : Option (List Char × List Char) :=
  match Text.cutAt? ':' s with
  | some (c :: r, rest) => if c.isAlpha && r.all isSchemeChar then some (c :: r, rest) else none
  | _ => none

/-- What precedes the first `separator`. -/
def upTo (separator : Char) (s : List Char) : List Char :=
  s.takeWhile (· != separator)

/-- The path of a reference, without the name of a host. -/
def withoutHost (s : List Char) : List Char :=
  match s with
  | '/' :: '/' :: r => r.dropWhile (· != '/')
  | r => r

def ofText (text : String) : ImportReference :=
  let (scheme, rest) := (scheme? text.toList).getD ([], text.toList)
  let (place, query) := (Text.cutAt? '?' (upTo '#' rest)).getD (upTo '#' rest, [])
  ⟨String.ofList scheme, String.ofList (withoutHost place), String.ofList query⟩

/-- Whether the path names a file of this kind. -/
def hasYamlName (r : ImportReference) : Bool :=
  r.path.endsWith ".yaml"

/-- Schemes that are not looked into. -/
def foreignSchemes : List String :=
  ["http", "https", "plugin"]

def isRemote (r : ImportReference) : Bool :=
  foreignSchemes.contains r.scheme

/-- Definitions that need no file. -/
def builtinPaths : List String :=
  ["nativeedge/types/types.yaml", "cloudify/types/types.yaml"]

def isBuiltin (r : ImportReference) : Bool :=
  builtinPaths.contains r.path

def versionedPlugins : List String :=
  ["nativeedge-openstack-plugin", "cloudify-openstack-plugin"]

/-- The requirements on a plugin's version, between commas. -/
def constraints (r : ImportReference) : List String :=
  (Text.pieces ',' r.query.toList).map String.ofList

/-- Whether a text starts with a dot and then has digits; the rest after them. -/
def afterDotDigits? (s : List Char) : Option (List Char) :=
  match s with
  | '.' :: r =>
    if r.head?.any Text.isAnyDigit then some (r.dropWhile Text.isAnyDigit) else none
  | _ => none

/-- The first number of a version `1.2.3` that starts here. -/
def majorHere? (s : List Char) : Option (List Char) :=
  let digits := s.takeWhile Text.isAnyDigit
  if digits.isEmpty then none
  else ((afterDotDigits? (s.dropWhile Text.isAnyDigit)).bind afterDotDigits?).map fun _ => digits

/-- The first number of the first version in a text. -/
def major? : List Char → Option (List Char)
  | [] => none
  | c :: r => (majorHere? (c :: r)).or (major? r)

/-- Whether a requirement allows for version three or a later one. -/
def allowsThree (constraint : String) : Bool :=
  !Text.occursIn "<=".toList constraint.toList
    && ((major? constraint.toList).bind Number.natural64?).any (3 ≤ ·)

end ImportReference

end Blueprint
