import Blueprint.Table
import Blueprint.Text.Cut

/-!
Files as they are seen from one directory. A place is a list of names from there: it starts with
an empty name if it is counted from the root, and with `..` if it is outside the directory. A path
is looked up step by step, and each step but the last has to lead to a directory.
-/

namespace Blueprint

inductive FileEntry where
  | text (content : String)
  /-- A file that holds no text. -/
  | binary
  | directory
deriving DecidableEq

/-- The entries by their place, its names joined by slashes. -/
structure Files where
  entries : Table FileEntry

namespace Files

def empty : Files := ⟨.empty⟩

instance : Inhabited Files := ⟨empty⟩

def key (place : List String) : String :=
  "/".intercalate place

def root : List String := [""]

/-- Whether a place is a directory wherever the files are: the directory itself, one around it, or
the root. -/
def isFixed (place : List String) : Bool :=
  place = root || place.all (· == "..")

def entry? (fs : Files) (place : List String) : Option FileEntry :=
  if isFixed place then some .directory else fs.entries.get? (key place)

def isDirectory (fs : Files) (place : List String) : Bool :=
  fs.entry? place == some .directory

def segments (path : String) : List String :=
  (Text.pieces '/' path.toList).map String.ofList

def isEmptyName (name : String) : Bool :=
  name = "" || name = "."

def isAbsolute (path : String) : Bool :=
  path.startsWith "/"

/-- The names on a path, without empty ones and `.`. -/
def names (path : String) : List String :=
  (segments path).filter (!isEmptyName ·)

/-- The place at which a path starts. -/
def start (path : String) : List String :=
  if isAbsolute path then root else []

/-- Whether a path can only lead to a directory. -/
def wantsDirectory (path : String) : Bool :=
  (segments path).getLast?.all fun name => isEmptyName name || name = ".."

/-- The place that a name leads to. -/
def enter (place : List String) (name : String) : List String :=
  if name ≠ ".." then place ++ [name]
  else if place = root then root
  else if place.getLast?.all (· == "..") then place ++ [".."]
  else place.dropLast

/-- Follows names from a place on. -/
def walk (fs : Files) (place : List String) : List String → Option (List String)
  | [] => some place
  | name :: r => if fs.isDirectory place then walk fs (enter place name) r else none

/-- The entry that a path leads to, with its place. -/
def find? (fs : Files) (path : String) : Option (List String × FileEntry) := do
  if path = "" then none
  let place ← fs.walk (start path) (names path)
  let entry ← fs.entry? place
  if wantsDirectory path && entry ≠ .directory then none
  return (place, entry)

def exists? (fs : Files) (path : String) : Bool :=
  (fs.find? path).isSome

/-- The text of a file. -/
def read? (fs : Files) (path : String) : Option String :=
  match fs.find? path with
  | some (_, .text content) => some content
  | _ => none

def addEntry (fs : Files) (place : List String) (entry : FileEntry) : Files :=
  ⟨fs.entries.insert (key place) entry⟩

def addDirectory (fs : Files) (place : List String) : Files :=
  if fs.isDirectory place then fs else fs.addEntry place .directory

def createFrom (fs : Files) (entry : FileEntry) (place : List String) : List String → Files
  | [] => if isFixed place then fs else fs.addEntry place entry
  | name :: r => createFrom (fs.addDirectory place) entry (enter place name) r

/-- Adds an entry and the directories on the way to it. -/
def create (fs : Files) (path : String) (entry : FileEntry) : Files :=
  fs.createFrom entry (start path) (names path)

/-- Replaces the text of a file that is there. -/
def write? (fs : Files) (path content : String) : Option Files :=
  match fs.find? path with
  | some (_, .directory) | none => none
  | some (place, _) => some (fs.addEntry place (.text content))

/-- A path to the directory that holds the last name of a path. -/
def parent (path : String) : String :=
  (if isAbsolute path then "/" else "") ++ key (names path).dropLast

/-- A path from a directory, unless the path does not depend on one. -/
def join (directory path : String) : String :=
  if directory = "" || isAbsolute path then path else directory ++ "/" ++ path

end Files

end Blueprint
