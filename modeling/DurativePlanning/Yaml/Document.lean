import DurativePlanning.Yaml.Node
import DurativePlanning.Yaml.Token

/-!
# Reading Documents

The tokens of a document spell a tree. A reference keeps the number that its name has where it
stands.

* `Document.ofTokens`: the document that some tokens spell.
* `Document.ofText`: the document that a text spells.

Each function that reads a node returns the tokens that are left, with a proof that they are fewer,
so reading comes to an end.
-/

namespace DurativePlanning.Yaml

/-- What is known of a document while it is read. -/
structure Outline where
  handles : Handles
  anchors : Anchors := {}

/-- Reading nodes, which may have anchors; the `Outline` is carried along. -/
abbrev Composing := StateT Outline (Except ReadError)

/-- What may stand before the content of a node: an anchor and a tag, in either order (`marks?`). -/
structure Marks where
  anchor : Option String
  tag : Option Tag

namespace Node

/-- Where a node stands. -/
inductive Place where
  /-- On lines of its own. -/
  | block
  /-- Behind a key or its colon: a sequence need not be indented further there. -/
  | field
  /-- Within brackets. -/
  | flow
  deriving DecidableEq

/-- A value, and tokens that are left of some tokens. The bound on their number is what the
recursion of the reading functions rests on. -/
abbrev Left (β : Type) (ts : List Token) := β × { rest : List Token // rest.length ≤ ts.length }

/-- A value, and tokens that are left of some tokens after at least one was used, as in `Left`. -/
abbrev Used (β : Type) (ts : List Token) := β × { rest : List Token // rest.length < ts.length }

/-- A token stands where it may not stand (`ReadError.wrongValue`). -/
def unexpected {β : Type} : Composing β := throw (.wrongValue "another token")

/-- Whether the content of a node begins with a token, at the given `place`. -/
def begins (place : Place) : List Token → Bool
  | .scalar _ _ :: _ | .flowSequence :: _ | .flowMapping :: _ => true
  | .blockSequence :: _ | .blockMapping :: _ => place != .flow
  | .entry :: _ => place == .field
  | _ => false

/-- Whether one of the tokens `ends` is in front. -/
def before (ends : List Token) : List Token → Bool
  | [] => false
  | t :: _ => ends.contains t

/-- The tokens before which a node in a block may be left out (`optional`). -/
def blockEnds : List Token := [.key, .value, .blockEnd]

/-- The anchor and the tag in front, in either order, if there is one of them. -/
def marks? : (ts : List Token) → Option (Used Marks ts)
  | .anchor name :: .tag tag :: ts | .tag tag :: .anchor name :: ts =>
    some ⟨⟨some name, some tag⟩, ts, Nat.lt_succ_of_lt (Nat.lt_succ_self _)⟩
  | .anchor name :: ts => some ⟨⟨some name, none⟩, ts, Nat.lt_succ_self _⟩
  | .tag tag :: ts => some ⟨⟨none, some tag⟩, ts, Nat.lt_succ_self _⟩
  | _ => none

/-- The node for which a reference stands, if its name has an anchor. -/
def ofReference (name : String) : Composing Node := do
  match (← get).anchors.number? name with
  | some number => return reference number
  | none => throw (.unknownAnchor name)

/-- Reads something behind some marks, given how it is read when its tag is known. Where there is an
anchor, `nodeOf` tells the node that it names. -/
def marked {β : Type} (marks : Marks) (nodeOf : β → Node) (read : Option String → Composing β) :
    Composing β := do
  let tag ← marks.tag.mapM fun tag => do tag.resolve (← get).handles
  match marks.anchor with
  | none => read tag
  | some name =>
    let anchor ← modifyGet fun o =>
      let (anchor, anchors) := o.anchors.begin name
      (anchor, { o with anchors })
    let x ← read tag
    modify fun o => { o with anchors := o.anchors.finish anchor (nodeOf x) }
    return x

mutual

/-- The node in front: a reference, or `marks?` and `content`. -/
def read (place : Place) : (ts : List Token) → Composing (Used Node ts)
  | .reference name :: ts => return ⟨← ofReference name, ts, Nat.lt_succ_self _⟩
  | ts =>
    match marks? ts with
    | none => content none place ts
    | some ⟨marks, rest, h⟩ => marked marks Prod.fst fun tag => do
      if begins place rest then
        let ⟨node, rest', h'⟩ ← content tag place rest
        return ⟨node, rest', Nat.lt_trans h' h⟩
      else return ⟨scalar tag .plain "", rest, h⟩
termination_by ts => (ts.length, 2)

/-- The node in front, behind its marks. On a scalar the tag of one exclamation mark alone does not
count. -/
def content (tag : Option String) (place : Place) : (ts : List Token) →
    Composing (Used Node ts)
  | .scalar style text :: ts =>
    return ⟨scalar (tag.filter (· != localHandle)) style text, ts, Nat.lt_succ_self _⟩
  | .flowSequence :: ts => do
    let ⟨items, rest, h⟩ ← flowItems [] ts
    return ⟨sequence tag items, rest, Nat.lt_succ_of_le h⟩
  | .flowMapping :: ts => do
    let ⟨entries, rest, h⟩ ← flowEntries [] ts
    return ⟨mapping tag entries, rest, Nat.lt_succ_of_le h⟩
  | .blockSequence :: ts =>
    if place = .flow then unexpected else do
    let ⟨items, rest, h⟩ ← blockItems [] ts
    return ⟨sequence tag items, rest, Nat.lt_succ_of_le h⟩
  | .blockMapping :: ts =>
    if place = .flow then unexpected else do
    let ⟨entries, rest, h⟩ ← blockEntries [] ts
    return ⟨mapping tag entries, rest, Nat.lt_succ_of_le h⟩
  | .entry :: ts =>
    if place ≠ .field then unexpected else do
    let ⟨item, rest, h⟩ ← optional .block (.entry :: blockEnds) ts
    let ⟨items, rest', h'⟩ ← looseItems [item] rest
    return ⟨sequence tag items, rest', Nat.lt_succ_of_le (Nat.le_trans h' h)⟩
  | _ => unexpected
termination_by ts => (ts.length, 1)

/-- The node in front, or `nothing` before one of the tokens `ends`. -/
def optional (place : Place) (ends : List Token) (ts : List Token) :
    Composing (Left Node ts) :=
  if before ends ts then return ⟨nothing, ts, Nat.le_refl _⟩ else do
  let ⟨node, rest, h⟩ ← read place ts
  return ⟨node, rest, Nat.le_of_lt h⟩
termination_by (ts.length, 3)

/-- The entries up to the end of a block, behind those already read in reverse. -/
def blockItems (items : List Node) : (ts : List Token) → Composing (Left (List Node) ts)
  | .entry :: ts => do
    let ⟨item, rest, h⟩ ← optional .block [.entry, .blockEnd] ts
    let ⟨items, rest', h'⟩ ← blockItems (item :: items) rest
    return ⟨items, rest', Nat.le_succ_of_le (Nat.le_trans h' h)⟩
  | .blockEnd :: ts => return ⟨items.reverse, ts, Nat.le_succ _⟩
  | _ => unexpected
termination_by ts => (ts.length, 0)

/-- The entries as far as they go, behind those already read in reverse. -/
def looseItems (items : List Node) : (ts : List Token) → Composing (Left (List Node) ts)
  | .entry :: ts => do
    let ⟨item, rest, h⟩ ← optional .block (.entry :: blockEnds) ts
    let ⟨items, rest', h'⟩ ← looseItems (item :: items) rest
    return ⟨items, rest', Nat.le_succ_of_le (Nat.le_trans h' h)⟩
  | ts => return ⟨items.reverse, ts, Nat.le_refl _⟩
termination_by ts => (ts.length, 0)

/-- The fields up to the end of a block, behind those already read in reverse. -/
def blockEntries (entries : List (Node × Node)) : (ts : List Token) →
    Composing (Left (List (Node × Node)) ts)
  | .key :: ts => do
    let ⟨key, rest, h⟩ ← optional .field blockEnds ts
    let ⟨value, rest', h'⟩ ← fieldValue .field blockEnds rest
    let ⟨entries, rest'', h''⟩ ← blockEntries ((key, value) :: entries) rest'
    return ⟨entries, rest'', Nat.le_succ_of_le (Nat.le_trans h'' (Nat.le_trans h' h))⟩
  | .blockEnd :: ts => return ⟨entries.reverse, ts, Nat.le_succ _⟩
  | _ => unexpected
termination_by ts => (ts.length, 0)

/-- The value behind a key, `nothing` if there is no colon. -/
def fieldValue (place : Place) (ends : List Token) : (ts : List Token) →
    Composing (Left Node ts)
  | .value :: ts => do
    let ⟨node, rest, h⟩ ← optional place ends ts
    return ⟨node, rest, Nat.le_succ_of_le h⟩
  | ts => return ⟨nothing, ts, Nat.le_refl _⟩
termination_by ts => (ts.length, 0)

/-- The items up to a closing bracket, behind those already read in reverse. -/
def flowItems (items : List Node) : (ts : List Token) → Composing (Left (List Node) ts)
  | .flowSequenceEnd :: ts => return ⟨items.reverse, ts, Nat.le_succ _⟩
  | .comma :: .flowSequenceEnd :: ts =>
    if items.isEmpty then unexpected
    else return ⟨items.reverse, ts, Nat.le_succ_of_le (Nat.le_succ _)⟩
  | .comma :: ts =>
    if items.isEmpty then unexpected else do
    let ⟨item, rest, h⟩ ← flowItem ts
    let ⟨items, rest', h'⟩ ← flowItems (item :: items) rest
    return ⟨items, rest', Nat.le_succ_of_le (Nat.le_of_lt (Nat.lt_of_le_of_lt h' h))⟩
  | ts =>
    if !items.isEmpty then unexpected else do
    let ⟨item, rest, h⟩ ← flowItem ts
    let ⟨items, rest', h'⟩ ← flowItems (item :: items) rest
    return ⟨items, rest', Nat.le_of_lt (Nat.lt_of_le_of_lt h' h)⟩
termination_by ts => (ts.length, 4)

/-- An item within brackets: a node, or a single field (`flowKey`, `fieldValue`). -/
def flowItem : (ts : List Token) → Composing (Used Node ts)
  | .key :: ts => do
    let ⟨key, rest, h⟩ ← flowKey ts
    let ⟨value, rest', h'⟩ ← fieldValue .flow [.comma, .flowSequenceEnd] rest
    return ⟨mapping none [(key, value)], rest', Nat.lt_succ_of_le (Nat.le_trans h' h)⟩
  | ts => read .flow ts
termination_by ts => (ts.length, 3)

/-- The key of a single field. Where the key is left out, the sign in its place does not count. -/
def flowKey : (ts : List Token) → Composing (Left Node ts)
  | .value :: ts | .comma :: ts | .flowSequenceEnd :: ts => return ⟨nothing, ts, Nat.le_succ _⟩
  | ts => do
    let ⟨node, rest, h⟩ ← read .flow ts
    return ⟨node, rest, Nat.le_of_lt h⟩
termination_by ts => (ts.length, 3)

/-- The fields up to a closing bracket, behind those already read in reverse. -/
def flowEntries (entries : List (Node × Node)) : (ts : List Token) →
    Composing (Left (List (Node × Node)) ts)
  | .flowMappingEnd :: ts => return ⟨entries.reverse, ts, Nat.le_succ _⟩
  | .comma :: .flowMappingEnd :: ts =>
    if entries.isEmpty then unexpected
    else return ⟨entries.reverse, ts, Nat.le_succ_of_le (Nat.le_succ _)⟩
  | .comma :: ts =>
    if entries.isEmpty then unexpected else do
    let ⟨entry, rest, h⟩ ← flowEntry ts
    let ⟨entries, rest', h'⟩ ← flowEntries (entry :: entries) rest
    return ⟨entries, rest', Nat.le_succ_of_le (Nat.le_of_lt (Nat.lt_of_le_of_lt h' h))⟩
  | ts =>
    if !entries.isEmpty then unexpected else do
    let ⟨entry, rest, h⟩ ← flowEntry ts
    let ⟨entries, rest', h'⟩ ← flowEntries (entry :: entries) rest
    return ⟨entries, rest', Nat.le_of_lt (Nat.lt_of_le_of_lt h' h)⟩
termination_by ts => (ts.length, 4)

/-- A field within brackets; a key without a colon has no value. -/
def flowEntry : (ts : List Token) → Composing (Used (Node × Node) ts)
  | .key :: ts => do
    let ⟨key, rest, h⟩ ← optional .flow [.value, .comma, .flowMappingEnd] ts
    let ⟨value, rest', h'⟩ ← fieldValue .flow [.comma, .flowMappingEnd] rest
    return ⟨(key, value), rest', Nat.lt_succ_of_le (Nat.le_trans h' h)⟩
  | ts => do
    let ⟨key, rest⟩ ← read .flow ts
    return ⟨(key, nothing), rest⟩
termination_by ts => (ts.length, 3)

end

end Node

/-! ### Documents -/

namespace Document

/-- The directives in front, and the tokens behind them. -/
def directives : List Token → List Directive × List Token
  | .directive directive :: ts =>
    let (rest, ts) := directives ts
    (directive :: rest, ts)
  | ts => ([], ts)

/-- Whether no node stands behind the sign of a document's start. -/
def isBare : List Token → Bool
  | [] | .directive _ :: _ | .documentStart :: _ | .documentEnd :: _ => true
  | _ => false

/-- The document whose only node some tokens spell (`Node.read`). Nothing but signs of its end may
follow. -/
def ofBody (handles : Handles) (ts : List Token) : Except ReadError Document := do
  let (⟨root, rest, _⟩, outline) ← (Node.read .block ts).run { handles }
  if rest.all (· == .documentEnd) then return ⟨root, outline.anchors.table⟩ else throw .notAlone

/-- The document that some tokens spell. The `directives` need the sign of the document's start. -/
def ofTokens (ts : List Token) : Except ReadError Document := do
  if ts.isEmpty then return ⟨.nothing, []⟩
  let (directives, rest) := directives ts
  let handles ← Handles.ofDirectives false directives
  match rest with
  | .documentStart :: body =>
    if !isBare body then ofBody (handles ++ .standard) body
    else if body.all (· == .documentEnd) then return ⟨.nothing, []⟩
    else throw .notAlone
  | _ => if directives.isEmpty then ofBody .standard ts else throw .badDirective

/-- The document that a text spells: its `tokens`, read by `ofTokens`. -/
def ofText (text : String) : Except ReadError Document := do ofTokens (← tokens text)

end Document

end DurativePlanning.Yaml
