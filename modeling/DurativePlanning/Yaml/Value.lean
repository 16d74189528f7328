import DurativePlanning.Decimal.Layout
import DurativePlanning.Decimal.Reading
import DurativePlanning.Yaml.Document

/-!
# Values in Documents

What a plain scalar means depends on what is asked for: the same text can be a number where a number
is expected, and a text where a text is. A quoted scalar is only ever a text. Where a list or a
group of fields is expected, nothing written counts as an empty one. References are followed as
values are read, and only so often.

* `Reading`: reading values, with `Node.resolve` to follow a reference.
* `Stored`: the types whose values are stored in documents.
* `Fields`: the fields of a mapping, found by name.
-/

namespace DurativePlanning.Yaml

/-- The spellings of the absent value. -/
def isNull (text : String) : Bool := ["null", "Null", "NULL", "~"].contains text

/-- The truth value that a text spells. -/
def readBool? (text : String) : Option Bool :=
  if ["true", "True", "TRUE"].contains text then some true
  else if ["false", "False", "FALSE"].contains text then some false
  else none

/-- A text without one plus sign before it. -/
def dropPlus : List Char → List Char
  | '+' :: rest => rest
  | text => text

/-- Whether a text is a number with a zero too many before it, a sign aside (`splitSign`). -/
def isPadded (text : List Char) : Bool :=
  match (splitSign text).2 with
  | '0' :: rest => !rest.isEmpty && rest.all Char.isDigit
  | _ => false

/-- The number that digits to some base spell, if there is one digit at least and no other sign. -/
def readDigits? (base : Nat) (digits : List Char) : Option Nat :=
  if digits.isEmpty then none else
  digits.foldl (fun n c => do
    let d ← hexDigit? c
    if d < base then return base * (← n) + d else none) (some 0)

/-- The whole number, not below zero, that a text spells: to base ten, or to the base that a mark
before the digits names (`readDigits?`). -/
def readWhole? (text : List Char) : Option Nat :=
  match dropPlus text with
  | '0' :: 'x' :: digits => readDigits? 16 digits
  | '0' :: 'o' :: digits => readDigits? 8 digits
  | '0' :: 'b' :: digits => readDigits? 2 digits
  | digits => if isPadded text then none else readDigits? 10 digits

/-- The number that a text spells. A decimal must be within the range of doubles. -/
def readFloat? (text : String) : Option Float :=
  let unsigned := dropPlus text.toList
  let signedTwice :=
    unsigned.length < text.length && (splitSign unsigned).2.length < unsigned.length
  if signedTwice then none
  else if [".inf", ".Inf", ".INF"].contains (String.ofList unsigned) then some (1.0 / 0.0)
  else if ["-.inf", "-.Inf", "-.INF"].contains text then some (-1.0 / 0.0)
  else if [".nan", ".NaN", ".NAN"].contains text then some (0.0 / 0.0)
  else (readDecimal? (String.ofList unsigned)).filter Float.isFinite

/-! ### References -/

/-- What is needed to follow references. -/
structure References where
  /-- The anchored nodes by number. -/
  nodes : List (Nat × Node)
  /-- How often references may still be followed. -/
  left : Nat

/-- Reading values, with the `References` that may still be followed. -/
abbrev Reading := StateT References (Except ReadError)

/-- How often references may be followed for each part of a document; `Node.size` counts the
parts. -/
def referencesPerPart : Nat := 100

/-- What a reader makes of a document, when references are followed at most `referencesPerPart`
times for each part. -/
def Document.value {β : Type} (read : Node → Reading β) (d : Document) : Except ReadError β :=
  (read d.root).run' ⟨d.anchored, referencesPerPart * d.root.size⟩

namespace Node

/-- The node that a `reference` stands for; any other node stands for itself. -/
def resolve : Node → Reading Node
  | reference number => do
    let a ← get
    match a.left, a.nodes.lookup number with
    | left + 1, some node =>
      set { a with left }
      return node
    | _, _ => throw .tooManyReferences
  | node => return node

/-! ### Scalars and lists -/

/-- The text of a scalar, after `resolve`. -/
def text (node : Node) : Reading String := do
  match ← node.resolve with
  | scalar _ _ text => return text
  | _ => throw (.wrongValue "a text")

/-- The kinds of plain values that a tag can name. -/
inductive Kind where
  | null
  | bool
  | int
  | float
  deriving DecidableEq, Repr

/-- The tag that names a kind: one of the `standardTags`. -/
def Kind.tag (kind : Kind) : String :=
  standardTags ++ match kind with
    | null => "null"
    | bool => "bool"
    | int => "int"
    | float => "float"

/-- Whether a scalar may spell more than a text: it is plain, or a block under the tag of its kind
(`Kind.tag`). -/
def mayBe (kind : Kind) (tag : Option String) : Style → Bool
  | .plain => true
  | .literal => tag = some kind.tag
  | _ => false

/-- What a scalar of some kind spells, where it `mayBe` of this kind. -/
def spelled {β : Type} (kind : Kind) (expected : String) (read? : String → Option β) (node : Node) :
    Reading β := do
  match ← node.resolve with
  | scalar tag style text =>
    match read? text with
    | some x => if mayBe kind tag style then return x else throw (.wrongValue expected)
    | none => throw (.wrongValue expected)
  | _ => throw (.wrongValue expected)

/-- A whole number below a limit (`readWhole?`). -/
def natural (limit : Nat) : Node → Reading Nat :=
  spelled .int "a whole number in range" fun text =>
    (readWhole? text.toList).filter (· < limit)

/-- Whether nothing is written. -/
def isNothing : Node → Bool
  | scalar _ .plain text => text.isEmpty
  | _ => false

/-- Whether nothing or the absent value (`isNull`) is written. Under the tag of the absent value
only that may stand. -/
def isAbsent : Node → Except ReadError Bool
  | scalar none .plain text => return text.isEmpty || isNull text
  | scalar (some tag) .plain text =>
    if tag ≠ Kind.null.tag then return false
    else if isNull text then return true
    else throw (.wrongValue "null")
  | _ => return false

/-- The members of a sequence; what `isNothing` has none. -/
def items (node : Node) : Reading (List Node) := do
  match ← node.resolve with
  | sequence _ items => return items
  | node => if node.isNothing then return [] else throw (.wrongValue "a list")

/-! ### Variants -/

/-- A node without its tag. -/
def untagged : Node → Node
  | scalar _ style text => scalar none style text
  | sequence _ items => sequence none items
  | mapping _ entries => mapping none entries
  | reference number => reference number

/-- The name before a node: a tag without its exclamation mark. -/
def variant? (node : Node) : Option String :=
  let tag := match node with
    | scalar tag _ _ => tag
    | sequence tag _ => tag
    | mapping tag _ => tag
    | reference _ => none
  match tag.map (·.toList) with
  | some ('!' :: name) => some (if name.isEmpty then "!" else String.ofList name)
  | _ => none

/-- One of several names: a scalar, or a tag before nothing (`variant?`). -/
def choice {β : Type} (expected : String) (ofText? : String → Option β) (node : Node) :
    Reading β := do
  let node ← node.resolve
  let name ← match node.variant? with
    | some name =>
      if ← node.untagged.isAbsent then pure name else throw (.wrongValue expected)
    | none => node.text
  match ofText? name with
  | some x => return x
  | none => throw (.wrongValue expected)

/-- A node under a tag, behind `localHandle`. -/
def tagged (name : String) : Node → Node
  | scalar _ style text => scalar (some (localHandle ++ name)) style text
  | sequence _ items => sequence (some (localHandle ++ name)) items
  | mapping _ entries => mapping (some (localHandle ++ name)) entries
  | reference number => reference number

/-- A word that needs no quotes. -/
def word (text : String) : Node := scalar none .plain text

/-- A mapping of names, each a plain `word`. -/
def record (fields : List (String × Node)) : Node :=
  mapping none (fields.map fun (name, node) => (word name, node))

end Node

/-! ### Fields -/

/-- The fields of a mapping that have known names. -/
abbrev Fields := List (String × Node)

/-- A further field. Fields with other names do not count, and none may occur twice. -/
def Fields.add (known : List String) (fields : Fields) (entry : Node × Node) : Reading Fields := do
  let name ← entry.1.text
  if !known.contains name then return fields
  else if (fields.lookup name).isSome then throw (.repeatedField name)
  else return (name, entry.2) :: fields

/-- The fields of a node that have known names, gathered by `Fields.add`. -/
def Node.fields (known : List String) (node : Node) : Reading Fields := do
  match ← node.resolve with
  | .mapping _ entries => entries.foldlM (Fields.add known) []
  | node => if node.isNothing then return [] else throw (.wrongValue "a group of fields")

/-! ### Types in documents -/

/-- The types whose values are stored in documents: `toNode` writes one and `ofNode` reads it. -/
class Stored (β : Type) where
  toNode : β → Node
  ofNode : Node → Reading β

export Stored (toNode ofNode)

namespace Fields

/-- A field that must be there, read by `ofNode`. -/
def get {β : Type} [Stored β] (fields : Fields) (name : String) : Reading β :=
  match fields.lookup name with
  | some node => ofNode node
  | none => throw (.missingField name)

/-- A field that has a value when it is missing, and is read by `ofNode` when it is not. -/
def getD {β : Type} [Stored β] (fields : Fields) (name : String) (default : β) :
    Reading β :=
  match fields.lookup name with
  | some node => ofNode node
  | none => return default

end Fields

instance : Stored Bool where
  toNode b := .word (toString b)
  ofNode := Node.spelled .bool "true or false" readBool?

/-- Whole numbers of 64 bits. -/
instance : Stored Nat where
  toNode n := .word (toString n)
  ofNode := Node.natural UInt64.size

instance : Stored Float where
  toNode x := .word (Layout.document.text x)
  ofNode := Node.spelled .float "a number" readFloat?

/-- A value that may be absent. -/
instance {β : Type} [Stored β] : Stored (Option β) where
  toNode
    | some x => toNode x
    | none => .word "null"
  ofNode node := do
    let node ← node.resolve
    if ← node.isAbsent then return none else some <$> ofNode node

instance {β : Type} [Stored β] : Stored (List β) where
  toNode xs := .sequence none (xs.map toNode)
  ofNode node := do (← node.items).mapM ofNode

/-- A pair is a list of two. -/
instance {β γ : Type} [Stored β] [Stored γ] : Stored (β × γ) where
  toNode p := .sequence none [toNode p.1, toNode p.2]
  ofNode node := do
    match ← node.items with
    | [a, b] => return (← ofNode a, ← ofNode b)
    | _ => throw (.wrongValue "a list of two")

/-- Reads a whole number of 32 bits (`Node.natural`). -/
def ofNode32 : Node → Reading Nat := Node.natural UInt32.size

/-- A whole number that is stored with 32 bits. -/
structure Number32 where
  value : Nat

instance : Stored Number32 where
  toNode n := toNode n.value
  ofNode node := Number32.mk <$> ofNode32 node

end DurativePlanning.Yaml
