import DurativePlanning.Decimal.Reading
import DurativePlanning.Yaml.Scalar

/-!
# Tags and Directives

A tag says of what kind a node is. It begins with a handle that stands for the first part of its
name, and a directive, on a line before the document, says for what a handle stands. In names,
octets may be escaped by a percent sign.

* `Tag`: tags as they are written; `Tag.ofCells`: the tag at the front of some cells.
* `Directive`: directives; `Directive.ofCells`: the directive at the front of some cells.
* `Handles`: for what handles stand; `Tag.resolve`: the full name of a tag.
-/

namespace DurativePlanning.Yaml

/-! ### Names -/

/-- The characters of the names of handles, anchors and directives. -/
def isWordChar (c : Char) : Bool := c.isAlphanum || c = '-' || c = '_'

/-- The characters of the names of tags. -/
def isTagChar (c : Char) : Bool := c.isAlphanum || "-_;/?:@&=+$.%~*'()!".contains c

/-- The characters of names that do not stand within brackets. -/
def isFreeTagChar (c : Char) : Bool := isTagChar c || ",[]".contains c

/-- The characters in front that satisfy `p`, and the cells after them. -/
def span (p : Char → Bool) (cs : List Cell) : List Char × List Cell :=
  let front := cs.takeWhile fun c => p c.char
  (front.map (·.char), cs.drop front.length)

/-- A character of which some octets are still to come. -/
structure Partial where
  /-- The number of octets to come. -/
  missing : Nat
  /-- What the octets so far spell. -/
  number : Nat
  /-- The least number that needs so many octets. -/
  least : Nat

namespace Partial

/-- A character of which the first octet has come. -/
def ofFirst? (octet : Nat) : Option Partial :=
  if octet < 0x80 then some ⟨0, octet, 0⟩
  else if octet < 0xC0 then none
  else if octet < 0xE0 then some ⟨1, octet - 0xC0, 0x80⟩
  else if octet < 0xF0 then some ⟨2, octet - 0xE0, 0x800⟩
  else if octet < 0xF8 then some ⟨3, octet - 0xF0, 0x10000⟩
  else none

/-- A character of which a further octet has come. -/
def add? (p : Partial) (octet : Nat) : Option Partial :=
  if 0x80 ≤ octet ∧ octet < 0xC0 then
    some { p with missing := p.missing - 1, number := 64 * p.number + (octet - 0x80) }
  else none

/-- The character that is complete, if there is one with its number. -/
def char? (p : Partial) : Option Char :=
  if p.number.isValidChar ∧ p.least ≤ p.number then some (Char.ofNat p.number) else none

end Partial

/-- The characters that a name with escapes spells, `none` for those that are none, behind those
before it in reverse. An escaped character may not be cut short. -/
def unescape (before : List (Option Char)) (open? : Option Partial) :
    List Char → Option (List (Option Char))
  | '%' :: high :: low :: rest => do
    let octet ← hexNumber? [high, low]
    let p ← match open? with
      | some p => p.add? octet
      | none => Partial.ofFirst? octet
    if p.missing = 0 then unescape (p.char? :: before) none rest
    else unescape before (some p) rest
  | c :: rest => if c = '%' ∨ open?.isSome then none else unescape (some c :: before) none rest
  | [] => if open?.isSome then none else some before.reverse

/-- The name that some characters spell, up to the first null character. -/
def nameOf? (chars : List Char) : Option (Option String) := do
  let name ← unescape [] none chars
  return (name.takeWhile (· != some '\x00')).mapM id |>.map String.ofList

/-! ### Tags -/

/-- A tag as it is written. -/
structure Tag where
  /-- What stands for the first part of the name, if the name is not complete. -/
  handle : Option String
  /-- The rest of the name, unless its escapes spell no characters. -/
  name : Option String
  deriving DecidableEq, Repr

/-- The handle of tags with one exclamation mark. -/
def localHandle : String := "!"

/-- The text that stands before the name of a tag with two exclamation marks. -/
def standardTags : String := "tag:yaml.org,2002:"

namespace Tag

/-- A tag between angle brackets, behind the opening one (`isFreeTagChar`). -/
def enclosed? (cs : List Cell) : Option (Tag × List Cell) := do
  let (chars, rest) := span isFreeTagChar cs
  let name ← nameOf? chars
  if next rest = some '>' && !chars.isEmpty then return (⟨none, name⟩, rest.drop 1) else none

/-- A tag that is not in brackets, behind its exclamation mark (`isTagChar`). -/
def shorthand? (cs : List Cell) : Option (Tag × List Cell) := do
  let (chars, rest) := span isTagChar cs
  let word := chars.takeWhile isWordChar
  match chars.drop word.length with
  | '!' :: inner =>
    let name ← nameOf? inner
    if inner.isEmpty then none
    else return (⟨some (String.ofList ('!' :: word ++ ['!'])), name⟩, rest)
  | _ =>
    let name ← nameOf? chars
    return (if name = some "" then ⟨none, some "!"⟩ else ⟨some localHandle, name⟩, rest)

/-- The tag at the front of some cells, behind its exclamation mark, and the cells after it:
`enclosed?` or `shorthand?`. -/
def ofCells? (cs : List Cell) : Option (Tag × List Cell) :=
  if next cs = some '<' then enclosed? (cs.drop 1) else shorthand? cs

end Tag

/-! ### Directives -/

/-- The directives. -/
inductive Directive where
  /-- The version of the format. -/
  | version (major minor : Nat)
  /-- For what a handle stands, unless escapes spell no characters. -/
  | handle (handle : String) (meaning : Option String)
  deriving DecidableEq, Repr

namespace Directive

/-- A number of at most nine digits. -/
def number? (cs : List Cell) : Option (Nat × List Cell) := do
  let (digits, rest) := span Char.isDigit cs
  let n ← readNat? digits
  if digits.length ≤ 9 then return (n, rest) else none

/-- Two numbers (`number?`) with a point between them. -/
def version? (cs : List Cell) : Option (Directive × List Cell) := do
  let (major, rest) ← number? cs
  if next rest = some '.' then
    let (minor, rest) ← number? (rest.drop 1)
    return (version major minor, rest)
  else none

/-- A handle and the text for which it stands. -/
def handle? (cs : List Cell) : Option (Directive × List Cell) := do
  let (word, rest) := span isWordChar (cs.drop 1)
  let closed := next rest = some '!'
  let (blanks, rest) := span isBlank (if closed then rest.drop 1 else rest)
  let (chars, rest) := span isFreeTagChar rest
  let meaning ← nameOf? chars
  if next cs = some '!' && (closed || word.isEmpty) && !blanks.isEmpty && !chars.isEmpty &&
      blankOrEnd rest then
    return (handle (String.ofList ('!' :: word ++ if closed then ['!'] else [])) meaning, rest)
  else none

/-- The directive at the front of some cells, behind its percent sign, and the cells after it. -/
def ofCells? (cs : List Cell) : Option (Directive × List Cell) :=
  let (name, rest) := span isWordChar cs
  let value := (span isBlank rest).2
  if !blankOrEnd rest then none
  else match String.ofList name with
    | "YAML" => version? value
    | "TAG" => handle? value
    | _ => none

end Directive

/-! ### Handles -/

/-- For what handles stand. -/
abbrev Handles := List (String × Option String)

/-- For what handles stand if no directive says otherwise: `localHandle` for itself, and two
exclamation marks for `standardTags`. -/
def Handles.standard : Handles := [(localHandle, some localHandle), ("!!", some standardTags)]

/-- The handles that directives introduce. Only one `version` may be named, and no handle twice. -/
def Handles.ofDirectives : (versioned : Bool) → List Directive → Except ReadError Handles
  | _, [] => .ok []
  | versioned, .version major minor :: rest =>
    if versioned ∨ major ≠ 1 ∨ (minor ≠ 1 ∧ minor ≠ 2) then .error .badDirective
    else ofDirectives true rest
  | versioned, .handle handle meaning :: rest => do
    let handles ← ofDirectives versioned rest
    if (handles.lookup handle).isSome then throw .badDirective
    return (handle, meaning) :: handles

/-- The full name of a tag, with what its handle stands for in `handles`. One whose escapes spell no
characters has a name that means nothing. -/
def Tag.resolve (handles : Handles) (tag : Tag) : Except ReadError String :=
  match tag.handle with
  | none => .ok (tag.name.getD "")
  | some handle =>
    match handles.lookup handle with
    | none => .error (.unknownHandle handle)
    | some meaning => .ok ((do return (← meaning) ++ (← tag.name) : Option String).getD "")

end DurativePlanning.Yaml
