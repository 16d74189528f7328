import DurativePlanning.Yaml.Error

/-!
# The Characters of a Document

A document is read as a list of cells: characters that know their place. All ways to end a line with
carriage return, line feed or next line count as a line feed.

* `cells`: the cells of a text.
* `isBlank`, `isBreak`, `blankOrEnd`: the classes of characters that separate.
* `atMarker`: whether a line begins with three equal signs that bound a document.
-/

namespace DurativePlanning.Yaml

/-- Blanks separate within a line. -/
def isBlank (c : Char) : Bool := c = ' ' || c = '\t'

/-- Breaks end a line. -/
def isBreak (c : Char) : Bool := c = '\n' || c = '\u2028' || c = '\u2029'

/-- The characters that a document may hold. -/
def isAllowed (c : Char) : Bool :=
  let n := c.toNat
  n = 0x9 || n = 0xA || n = 0xD || n = 0x85 || (0x20 ≤ n && n ≤ 0x7E) ||
    (0xA0 ≤ n && n ≤ 0xFFFD) || 0x10000 ≤ n

/-- A character and its place, counted from zero. -/
structure Cell where
  char : Char
  line : Nat
  column : Nat
  /-- The number of octets before it. -/
  offset : Nat

namespace Cell

/-- Something may not stand at a cell. -/
def misplaced (c : Cell) : ReadError := .misplaced (c.line + 1) (c.column + 1)

/-- The escape at a cell means nothing. -/
def badEscape (c : Cell) : ReadError := .badEscape (c.line + 1) (c.column + 1)

end Cell

/-- The cells of a text from some place on, behind the cells before it in reverse. -/
def cellsFrom (before : List Cell) (line column offset : Nat) : List Char → List Cell
  | [] => before.reverse
  | '\r' :: '\n' :: rest =>
    cellsFrom (⟨'\n', line, column, offset⟩ :: before) (line + 1) 0 (offset + 2) rest
  | c :: rest =>
    let seen := if c = '\r' ∨ c = '\x85' then '\n' else c
    let before := ⟨seen, line, column, offset⟩ :: before
    if isBreak seen then cellsFrom before (line + 1) 0 (offset + c.utf8Size) rest
    else cellsFrom before line (column + 1) (offset + c.utf8Size) rest

/-- The mark of byte order, which does not count at the beginning of a line. -/
def orderMark : Char := '\uFEFF'

/-- The cells of a text, unless it holds a character that no document may hold. -/
def cells (text : String) : Except ReadError (List Cell) :=
  match text.toList.find? (fun c => !isAllowed c) with
  | some c => .error (.forbidden c)
  | none => .ok (cellsFrom [] 0 0 0 text.toList)

/-- The character in front. -/
def next (cs : List Cell) : Option Char := cs.head?.map (·.char)

/-- Whether a blank, a break or nothing is in front. -/
def blankOrEnd (cs : List Cell) : Bool := (next cs).all fun c => isBlank c || isBreak c

/-- Whether a line begins with a sign three times and nothing attached to it. -/
def atMarker (sign : Char) : List Cell → Bool
  | a :: b :: c :: rest =>
    a.column = 0 && a.char = sign && b.char = sign && c.char = sign && blankOrEnd rest
  | _ => false

/-- Whether a line begins with the sign of a document's start or end. -/
def atBoundary (cs : List Cell) : Bool := atMarker '-' cs || atMarker '.' cs

end DurativePlanning.Yaml
