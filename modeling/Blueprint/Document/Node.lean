import Blueprint.Document.Generic
import Blueprint.Text.Mark
import Blueprint.Yaml.Token

/-!
The tree of a document. `Node.value` forgets positions and styles; `Node.get?` looks up a key.
-/

namespace Blueprint

open Yaml (ScalarStyle)

/-- A node with its range. A mapping keeps its entries in order, also those with equal keys; an
alias holds the node that it refers to. -/
inductive Node where
  | scalar (start stop : Mark) (text : String) (style : ScalarStyle) (textTag : Bool)
  | sequence (start stop : Mark) (flow : Bool) (items : List Node)
  | mapping (start stop : Mark) (flow : Bool) (entries : List (Node × Node))
  | alias (start stop : Mark) (target : Node)

namespace Node

def start : Node → Mark
  | scalar start .. | sequence start .. | mapping start .. | .alias start .. => start

def stop : Node → Mark
  | scalar _ stop .. | sequence _ stop .. | mapping _ stop .. | .alias _ stop _ => stop

def line (n : Node) : Nat :=
  n.start.line

/-- Whether a collection is written with brackets or braces. -/
def isFlow : Node → Bool
  | sequence _ _ flow _ | mapping _ _ flow _ => flow
  | _ => false

/-- The text of a scalar. -/
def text? : Node → Option String
  | scalar _ _ text .. => some text
  | _ => none

def isText (n : Node) (text : String) : Bool :=
  n.text? == some text

def entries? : Node → Option (List (Node × Node))
  | mapping _ _ _ entries => some entries
  | _ => none

/-- The entries of a mapping; other nodes have none. -/
def entries (n : Node) : List (Node × Node) :=
  n.entries?.getD []

def items? : Node → Option (List Node)
  | sequence _ _ _ items => some items
  | _ => none

/-- The items of a sequence; other nodes have none. -/
def items (n : Node) : List Node :=
  n.items?.getD []

/-- The entries of a mapping whose keys are scalars, each with the text of its key. -/
def namedEntries (n : Node) : List (String × Node × Node) :=
  n.entries.filterMap fun (k, v) => k.text?.map fun name => (name, k, v)

/-- The texts of the keys that are scalars. -/
def keyTexts (n : Node) : List String :=
  n.entries.filterMap (·.1.text?)

def isMapping (n : Node) : Bool :=
  n.entries?.isSome

/-- The value under the first key that is the scalar `key`. -/
def get? (n : Node) (key : String) : Option Node :=
  (n.entries.find? fun (k, _) => k.isText key).map (·.2)

mutual

/-- The value of a node. Of equal keys the last one counts. -/
def value : Node → Generic
  | scalar _ _ text style textTag =>
    if style = .plain ∧ ¬textTag then Generic.ofPlain text else .text text
  | sequence _ _ _ items => .list (values items)
  | mapping _ _ _ entries => .dict (fields [] entries)
  | .alias _ _ target => target.value

def values : List Node → List Generic
  | [] => []
  | n :: r => n.value :: values r

def fields (known : List (String × Generic)) : List (Node × Node) → List (String × Generic)
  | [] => known
  | (k, v) :: r =>
    let key := (k.text?).getD k.value.render
    fields (Table.insertEntry key v.value known) r

end

/-- The text that stands for a key: of a scalar its own, otherwise that of its value. -/
def keyName (n : Node) : String :=
  n.text?.getD n.value.render

end Node

end Blueprint
