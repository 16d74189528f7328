import DurativePlanning.Yaml.Tag

/-!
# Nodes

A document is a tree of scalars, sequences and mappings. A node of the tree may have a tag, and an
anchor, by which it can be repeated: a reference elsewhere stands for it. Anchors are numbered, so
that a name can be used again for another node.

* `Node`: the trees.
* `Anchors`: the anchors of a document, with `begin`, `finish` and `number?`.
* `Document`: a tree and its anchored nodes.
-/

namespace DurativePlanning.Yaml

/-- A tree of scalars, sequences and mappings. -/
inductive Node where
  | scalar (tag : Option String) (style : Style) (text : String)
  | sequence (tag : Option String) (items : List Node)
  | mapping (tag : Option String) (entries : List (Node × Node))
  /-- Stands for the node whose anchor has a number. -/
  | reference (number : Nat)
  deriving Inhabited

namespace Node

/-- What stands where nothing is written: a plain scalar without text. -/
def nothing : Node := scalar none .plain ""

mutual

/-- The number of scalars, references, and ends of collections. -/
def size : Node → Nat
  | scalar _ _ _ | reference _ => 1
  | sequence _ items => sizeItems items + 2
  | mapping _ entries => sizeEntries entries + 2

/-- The `size` of the members of a sequence. -/
def sizeItems : List Node → Nat
  | [] => 0
  | item :: rest => item.size + sizeItems rest

/-- The `size` of the fields of a mapping. -/
def sizeEntries : List (Node × Node) → Nat
  | [] => 0
  | (key, value) :: rest => key.size + value.size + sizeEntries rest

end

end Node

/-! ### Anchors -/

/-- An anchor of some node. -/
structure Anchor where
  number : Nat
  /-- The number of anchors before it. -/
  place : Nat

/-- The anchors of a document as far as it is read. -/
structure Anchors where
  /-- The numbers of the anchors, by name. -/
  numbers : List (String × Nat) := []
  /-- The number of anchors. -/
  count : Nat := 0
  /-- The anchored nodes that are complete. -/
  nodes : List (Anchor × Node) := []

namespace Anchors

/-- A further anchor. Its number is the number of names before it, so a name that is used again can
share its number with the next name. -/
def begin (name : String) (a : Anchors) : Anchor × Anchors :=
  let number := a.numbers.length
  (⟨number, a.count⟩, { a with
    numbers := (name, number) :: a.numbers.filter (·.1 != name), count := a.count + 1 })

/-- The node of an anchor is complete. Under each number, the node whose anchor comes last stays,
which `place` tells. -/
def finish (anchor : Anchor) (node : Node) (a : Anchors) : Anchors :=
  if a.nodes.any fun e => e.1.number = anchor.number && anchor.place < e.1.place then a
  else { a with nodes := (anchor, node) :: a.nodes }

/-- The number that a name has now. -/
def number? (name : String) (a : Anchors) : Option Nat := a.numbers.lookup name

/-- The anchored nodes by number. -/
def table (a : Anchors) : List (Nat × Node) := a.nodes.map fun e => (e.1.number, e.2)

end Anchors

/-- A tree and its anchored nodes by number. -/
structure Document where
  root : Node
  anchored : List (Nat × Node) := []

end DurativePlanning.Yaml
