/-!
Tables keyed by text, in the order of their keys, and lists sorted by a key.
-/

namespace Blueprint

/-- One value per key, in ascending order of the keys. -/
structure Table (α : Type) where
  entries : List (String × α)

namespace Table

variable {α : Type}

def empty : Table α := ⟨[]⟩

instance : Inhabited (Table α) := ⟨empty⟩

def insertEntry (key : String) (value : α) : List (String × α) → List (String × α)
  | [] => [(key, value)]
  | (k, v) :: r =>
    if key = k then (key, value) :: r
    else if key < k then (key, value) :: (k, v) :: r
    else (k, v) :: insertEntry key value r

/-- Replaces the value of a key that is present. -/
def insert (t : Table α) (key : String) (value : α) : Table α :=
  ⟨insertEntry key value t.entries⟩

def get? (t : Table α) (key : String) : Option α :=
  t.entries.lookup key

def contains (t : Table α) (key : String) : Bool :=
  t.entries.any (·.1 == key)

def erase (t : Table α) (key : String) : Table α :=
  ⟨t.entries.filter (·.1 != key)⟩

def keys (t : Table α) : List String :=
  t.entries.map (·.1)

def values (t : Table α) : List α :=
  t.entries.map (·.2)

def isEmpty (t : Table α) : Bool :=
  t.entries.isEmpty

def ofList (entries : List (String × α)) : Table α :=
  entries.foldl (fun t (k, v) => t.insert k v) empty

/-- Keeps the entries that satisfy `p`. -/
def filter (p : String → α → Bool) (t : Table α) : Table α :=
  ⟨t.entries.filter fun (k, v) => p k v⟩

end Table

/-- A set of names in ascending order. -/
abbrev NameSet := Table Unit

namespace NameSet

def add (s : NameSet) (name : String) : NameSet :=
  s.insert name ()

def addAll (s : NameSet) (names : List String) : NameSet :=
  names.foldl add s

def ofNames (names : List String) : NameSet :=
  addAll Table.empty names

end NameSet

section Sorting

variable {α : Type}

/-- Puts `x` before the first element that it precedes strictly. -/
def insertSorted (before : α → α → Bool) (x : α) : List α → List α
  | [] => [x]
  | y :: r => if before x y then x :: y :: r else y :: insertSorted before x r

/-- Sorts by a strict order; elements that it does not tell apart keep their order. -/
def sortBy (before : α → α → Bool) (xs : List α) : List α :=
  xs.foldl (fun sorted x => insertSorted before x sorted) []

/-- Puts the elements before `x`, then `x`, then what `rest` makes of the remaining ones. -/
def interleaveHead (le : α → α → Bool) (x : α) (xs : List α) (rest : List α → List α) :
    List α → List α
  | [] => xs
  | y :: ys => if le x y then x :: rest (y :: ys) else y :: interleaveHead le x xs rest ys

/-- Merges two sequences, taking the left head whenever it is not after the right one. -/
def interleave (le : α → α → Bool) : List α → List α → List α
  | [], ys => ys
  | x :: xs, ys => interleaveHead le x (x :: xs) (interleave le xs) ys

end Sorting

end Blueprint
