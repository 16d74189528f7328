import DurativePlanning.Yaml.Source

/-!
# Reading Scalars

A scalar is a piece of text, written plain, in single or double quotes, or as an indented block.
Within the first three, a line break between two words counts as a blank, and each further one as
itself: what separates two words is a `Gap`.

* `plain`, `single`, `double`, `block`: the scalar at the front of some cells, and the cells after
  it.
-/

namespace DurativePlanning.Yaml

/-- How a scalar is written. -/
inductive Style where
  | plain
  | single
  | double
  | literal
  | folded
  deriving DecidableEq, Repr, Inhabited

/-- What separates two words of a scalar; lists are in reverse. -/
inductive Gap where
  | blanks (chars : List Char)
  /-- Line breaks: the first one, unless it was escaped, and the others. -/
  | breaks (first : Option Char) (others : List Char)

namespace Gap

/-- No gap. -/
def empty : Gap := blanks []

/-- Whether nothing separates the words. -/
def isEmpty : Gap → Bool
  | blanks [] => true
  | _ => false

/-- Whether a line break separates the words. -/
def isBroken : Gap → Bool
  | blanks _ => false
  | breaks _ _ => true

/-- Blanks next to a line break do not count, so `breaks` stay as they are. -/
def addBlank (c : Char) : Gap → Gap
  | blanks chars => blanks (c :: chars)
  | breaks first others => breaks first others

/-- A further line break; blanks before it do not count. -/
def addBreak (c : Char) : Gap → Gap
  | blanks _ => breaks (some c) []
  | breaks first others => breaks first (c :: others)

/-- The text of a gap, in reverse. -/
def text : Gap → List Char
  | blanks chars => chars
  | breaks (some '\n') [] => [' ']
  | breaks (some '\n') others => others
  | breaks first others => others ++ first.toList

end Gap

/-- A scalar that was read. -/
structure Lexeme where
  text : String
  /-- The cells after it. -/
  rest : List Cell
  /-- Whether the line ended behind its last word. -/
  endsLine : Bool

/-- The text of some characters in reverse, as the functions of this module gather them. -/
def ofReversed (chars : List Char) : String := String.ofList chars.reverse

/-- The signs that end a plain scalar within brackets. -/
def isFlowSign (c : Char) : Bool := c = ',' || c = '[' || c = ']' || c = '{' || c = '}'

/-- A plain scalar. It ends before a comment, before a colon that stands for a key, within brackets
before one of their signs, and outside of brackets before a line that begins left of `least`. -/
def plain (inFlow : Bool) (least : Nat) (text : List Char) (gap : Gap) :
    List Cell → Except ReadError Lexeme
  | [] => .ok ⟨ofReversed text, [], gap.isBroken⟩
  | c :: rest =>
    let stop : Except ReadError Lexeme := .ok ⟨ofReversed text, c :: rest, gap.isBroken⟩
    if isBlank c.char then
      if gap.isBroken && c.char = '\t' && c.column < least then .error c.misplaced
      else plain inFlow least text (gap.addBlank c.char) rest
    else if isBreak c.char then plain inFlow least text (gap.addBreak c.char) rest
    else if gap.isBroken && (atBoundary (c :: rest) || (!inFlow && c.column < least)) then stop
    else if !gap.isEmpty && c.char = '#' then stop
    else if inFlow && c.char = ':' && (next rest).any (fun d => d = '?' || isFlowSign d) then
      .error c.misplaced
    else if (c.char = ':' && blankOrEnd rest) || (inFlow && isFlowSign c.char) then stop
    else plain inFlow least (c.char :: (gap.text ++ text)) .empty rest

/-- A scalar in single quotes, behind the opening one. A quote in it is written twice. -/
def single (text : List Char) (gap : Gap) : List Cell → Except ReadError Lexeme
  | [] => .error .unclosed
  | c :: rest =>
    if atBoundary (c :: rest) then .error c.misplaced
    else if isBlank c.char then single text (gap.addBlank c.char) rest
    else if isBreak c.char then single text (gap.addBreak c.char) rest
    else if c.char = '\'' then
      match rest with
      | [] => .ok ⟨ofReversed (gap.text ++ text), [], false⟩
      | d :: more =>
        if d.char = '\'' then single ('\'' :: (gap.text ++ text)) .empty more
        else .ok ⟨ofReversed (gap.text ++ text), d :: more, false⟩
    else single (c.char :: (gap.text ++ text)) .empty rest

/-- The escapes of one letter, and what they stand for. -/
def escapes : List (Char × Char) :=
  [('0', '\x00'), ('a', '\x07'), ('b', '\x08'), ('t', '\t'), ('\t', '\t'), ('n', '\n'),
    ('v', '\x0b'), ('f', '\x0c'), ('r', '\r'), ('e', '\x1b'), (' ', ' '), ('"', '"'), ('/', '/'),
    ('\\', '\\'), ('N', '\x85'), ('_', '\xa0'), ('L', '\u2028'), ('P', '\u2029')]

/-- The escapes with digits, and their number of digits. -/
def numericEscapes : List (Char × Nat) := [('x', 2), ('u', 4), ('U', 8)]

/-- The value of a digit to base sixteen. -/
def hexDigit? (c : Char) : Option Nat :=
  if c.isDigit then some (c.toNat - '0'.toNat)
  else if 'a' ≤ c ∧ c ≤ 'f' then some (c.toNat - 'a'.toNat + 10)
  else if 'A' ≤ c ∧ c ≤ 'F' then some (c.toNat - 'A'.toNat + 10)
  else none

/-- The number that digits to base sixteen spell. -/
def hexNumber? (digits : List Char) : Option Nat :=
  digits.foldl (fun n c => do return 16 * (← n) + (← hexDigit? c)) (some 0)

/-- The character that is escaped by a letter and the cells after it, and the number of those that
belong to the escape. -/
def escaped? (letter : Char) (after : List Cell) : Option (Char × Nat) :=
  match escapes.lookup letter with
  | some c => some (c, 0)
  | none => do
    let count ← numericEscapes.lookup letter
    let digits := (after.take count).map (·.char)
    let number ← hexNumber? digits
    if digits.length = count ∧ number.isValidChar then some (Char.ofNat number, count) else none

/-- A scalar in double quotes, behind the opening one. A backslash begins an escape; before a line
break it takes the break away. -/
def double (text : List Char) (gap : Gap) : List Cell → Except ReadError Lexeme
  | [] => .error .unclosed
  | c :: rest =>
    if atBoundary (c :: rest) then .error c.misplaced
    else if isBlank c.char then double text (gap.addBlank c.char) rest
    else if isBreak c.char then double text (gap.addBreak c.char) rest
    else if c.char = '"' then .ok ⟨ofReversed (gap.text ++ text), rest, false⟩
    else if c.char = '\\' then
      match rest with
      | [] => .error .unclosed
      | d :: more =>
        if isBreak d.char then double (gap.text ++ text) (.breaks none []) more
        else match escaped? d.char more with
          | some (e, count) => double (e :: (gap.text ++ text)) .empty (more.drop count)
          | none => .error c.badEscape
    else double (c.char :: (gap.text ++ text)) .empty rest
termination_by cells => cells.length
decreasing_by all_goals (simp only [List.length_cons, List.length_drop]; omega)

/-! ### Blocks -/

/-- What happens to the line breaks that end a block. -/
inductive Chomp where
  /-- All are dropped. -/
  | strip
  /-- One is kept. -/
  | clip
  | keep
  deriving DecidableEq, Repr

/-- A block under way; lists are in reverse. -/
structure BlockText where
  text : List Char := []
  /-- The break that ended the last line with text. -/
  first : Option Char := none
  /-- The breaks after it. -/
  others : List Char := []
  /-- Whether the last line with text began with a blank. -/
  indented : Bool := false

namespace BlockText

/-- The text before a further line that begins with `c`. In a folded block the break between two
lines that are not indented further counts as a blank. -/
def startLine (folded : Bool) (c : Char) (b : BlockText) : BlockText :=
  let separator :=
    if folded && b.first = some '\n' && !b.indented && !isBlank c then
      if b.others.isEmpty then [' '] else b.others
    else b.others ++ b.first.toList
  ⟨c :: (separator ++ b.text), none, [], isBlank c⟩

/-- The text of a block that has ended. -/
def finish (chomp : Chomp) (b : BlockText) : String :=
  ofReversed (match chomp with
    | .strip => b.text
    | .clip => b.first.toList ++ b.text
    | .keep => b.others ++ b.first.toList ++ b.text)

end BlockText

/-- The lines of a block that is indented by `indent`. -/
def blockLines (folded : Bool) (chomp : Chomp) (indent : Nat) (inLine : Bool) (b : BlockText) :
    List Cell → Except ReadError Lexeme
  | [] => .ok ⟨b.finish chomp, [], true⟩
  | c :: rest =>
    if inLine then
      if isBreak c.char then
        blockLines folded chomp indent false { b with first := some c.char, others := [] } rest
      else blockLines folded chomp indent true { b with text := c.char :: b.text } rest
    else if c.column < indent && c.char = ' ' then
      blockLines folded chomp indent false b rest
    else if c.column < indent && c.char = '\t' then .error c.misplaced
    else if isBreak c.char then
      blockLines folded chomp indent false { b with others := c.char :: b.others } rest
    else if c.column = indent then
      blockLines folded chomp indent true (b.startLine folded c.char) rest
    else .ok ⟨b.finish chomp, c :: rest, true⟩

/-- The indentation that the lines before the first text have at most. -/
def detectIndent (deepest : Nat) : List Cell → Except ReadError Nat
  | [] => .ok deepest
  | c :: rest =>
    if c.char = ' ' then detectIndent (max deepest (c.column + 1)) rest
    else if c.char = '\t' then .error c.misplaced
    else if isBreak c.char then detectIndent (max deepest c.column) rest
    else .ok (max deepest c.column)

/-- The sign for the end of a block. -/
def chomp? : List Cell → Option (Chomp × List Cell)
  | c :: rest =>
    if c.char = '+' then some (.keep, rest) else if c.char = '-' then some (.strip, rest) else none
  | [] => none

/-- The number of columns of a block's indentation, if it is stated. -/
def increment? : List Cell → Option (Nat × List Cell)
  | c :: rest => if c.char.isDigit then some (c.char.toNat - '0'.toNat, rest) else none
  | [] => none

/-- The signs behind the mark of a block, in either order. -/
def blockHeader (cs : List Cell) : Chomp × Option Nat × List Cell :=
  match chomp? cs with
  | some (chomp, rest) =>
    match increment? rest with
    | some (n, rest) => (chomp, some n, rest)
    | none => (chomp, none, rest)
  | none =>
    match increment? cs with
    | some (n, rest) =>
      match chomp? rest with
      | some (chomp, rest) => (chomp, some n, rest)
      | none => (.clip, some n, rest)
    | none => (.clip, none, cs)

/-- What may end a line: blanks and a comment. -/
def lineEnd (inComment : Bool) : List Cell → Except ReadError (List Cell)
  | [] => .ok []
  | c :: rest =>
    if isBreak c.char then .ok rest
    else if inComment || isBlank c.char then lineEnd inComment rest
    else if c.char = '#' then lineEnd true rest
    else .error c.misplaced

/-- A block, behind its mark, among lines indented by less than `least`. -/
def block (folded : Bool) (least : Nat) (cs : List Cell) : Except ReadError Lexeme := do
  let (chomp, increment, rest) := blockHeader cs
  let lines ← lineEnd false rest
  match increment with
  | some 0 => throw .unclosed
  | some n => blockLines folded chomp (least - 1 + n) false {} lines
  | none =>
    let deepest ← detectIndent 0 lines
    blockLines folded chomp (max deepest (max least 1)) false {} lines

end DurativePlanning.Yaml
