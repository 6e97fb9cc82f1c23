import Blueprint.Document.Node
import Blueprint.Drain

/-!
The nodes of a tree in the order in which they are written: a collection before its parts, a key
before its value. An alias is a leaf.
-/

namespace Blueprint

/-- A step from a collection to one of its parts. -/
inductive PathStep where
  | key (text : String)
  | index (i : Nat)
deriving DecidableEq

/-- A node, the key whose value it is, and the steps that lead to it from the root. -/
structure NodeVisit where
  node : Node
  keyNode : Option Node
  path : List PathStep

namespace NodeVisit

/-- The text of the key whose value this node is. -/
def key? (v : NodeVisit) : Option String :=
  v.keyNode.bind Node.text?

def depth (v : NodeVisit) : Nat :=
  v.path.length

/-- A key is visited with the path of its mapping. -/
def ofKey (path : List PathStep) (key : Node) : NodeVisit :=
  ⟨key, none, path⟩

def ofValue (path : List PathStep) (key value : Node) : NodeVisit :=
  ⟨value, some key, path ++ [.key key.keyName]⟩

def ofItem (path : List PathStep) (item : Node) (index : Nat) : NodeVisit :=
  ⟨item, none, path ++ [.index index]⟩

end NodeVisit

/-- A walk through a tree: the nodes that wait for their visit, the next one first. -/
structure NodeStream where
  pending : List NodeVisit

namespace NodeStream

def ofRoot (root : Node) : NodeStream :=
  ⟨[⟨root, none, []⟩]⟩

/-- The parts of a collection come before all that waits. -/
def push (v : NodeVisit) (pending : List NodeVisit) : List NodeVisit :=
  match v.node with
  | .mapping _ _ _ entries =>
    entries.foldr (fun (k, n) stack => .ofKey v.path k :: .ofValue v.path k n :: stack) pending
  | .sequence _ _ _ items =>
    items.zipIdx.foldr (fun (n, i) stack => .ofItem v.path n i :: stack) pending
  | .scalar .. | .alias .. => pending

def next? (s : NodeStream) : Option (NodeVisit × NodeStream) :=
  match s.pending with
  | [] => none
  | v :: pending => some (v, ⟨push v pending⟩)

end NodeStream

namespace Node

mutual

/-- How many nodes a walk visits. -/
def count : Node → Nat
  | scalar .. | .alias .. => 1
  | sequence _ _ _ items => countItems items + 1
  | mapping _ _ _ entries => countEntries entries + 1

def countItems : List Node → Nat
  | [] => 0
  | n :: r => count n + countItems r

def countEntries : List (Node × Node) → Nat
  | [] => 0
  | (k, v) :: r => count k + count v + countEntries r

end

def walk (n : Node) : List NodeVisit :=
  drain NodeStream.next? n.count (.ofRoot n)

end Node

end Blueprint
