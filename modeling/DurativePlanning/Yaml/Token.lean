import DurativePlanning.Yaml.Tag

/-!
# Tokens

A document is cut into tokens: scalars, marks of nodes, the signs of collections, and, where
indentation speaks, the begin and the end of a block. A key is known only by the colon behind it, so
while a scalar or a collection that may be a key is read, the scanner remembers where it began.

* `Token`: the tokens.
* `Scanner`: what has been cut off, and what is open.
* `tokens`: the tokens of a text.
-/

namespace DurativePlanning.Yaml

/-- The pieces of a document. -/
inductive Token where
  | directive (directive : Directive)
  | documentStart
  | documentEnd
  /-- A list of lines that begin with a dash opens. -/
  | blockSequence
  /-- A list of lines that begin with a key opens. -/
  | blockMapping
  | blockEnd
  | flowSequence
  | flowSequenceEnd
  | flowMapping
  | flowMappingEnd
  /-- A dash. -/
  | entry
  | comma
  | key
  | value
  | tag (tag : Tag)
  | anchor (name : String)
  | reference (name : String)
  | scalar (style : Style) (text : String)
  deriving DecidableEq, Repr

/-- Where a key may have begun. -/
structure KeyStart where
  /-- The number of tokens before it. -/
  position : Nat
  line : Nat
  column : Nat
  offset : Nat
  /-- Whether nothing else than a key may stand there. -/
  required : Bool

/-- A document under way. -/
structure Scanner where
  rest : List Cell
  tokens : Array Token := #[]
  /-- The columns of the open blocks, innermost first. -/
  blocks : List Nat := []
  /-- Where the key of the innermost collection may have begun. -/
  keyStart : Option KeyStart := none
  /-- The same for the collections around each open bracket, innermost first. -/
  outer : List (Option KeyStart) := []
  /-- Whether a key may begin here. -/
  keyAllowed : Bool := true

namespace Scanner

/-- Whether a bracket is open. -/
def inFlow (s : Scanner) : Bool := !s.outer.isEmpty

/-- The column where something inside the innermost of the `blocks` may begin. -/
def least (s : Scanner) : Nat := (s.blocks.head?.map (· + 1)).getD 0

/-- One more token at the end. -/
def emit (t : Token) (s : Scanner) : Scanner := { s with tokens := s.tokens.push t }

/-- Outside of brackets, closes the blocks whose column is at least `least`. -/
def closeBlocks (least : Nat) (s : Scanner) : Scanner :=
  if s.inFlow then s else
  let closed := (s.blocks.takeWhile (fun c => least ≤ c)).length
  { s with
    tokens := s.tokens ++ Array.replicate closed .blockEnd
    blocks := s.blocks.drop closed }

/-- Opens a block at a column, before the token with some position, unless one is open there or a
bracket is (`inFlow`). -/
def openBlock (column position : Nat) (t : Token) (s : Scanner) : Scanner :=
  if s.inFlow || column < s.least then s else
  { s with
    tokens := s.tokens.insertIdxIfInBounds position t
    blocks := column :: s.blocks }

/-- Forgets where a key may have begun (`KeyStart`), unless a key is `required` there. -/
def dropKey (s : Scanner) : Except ReadError Scanner :=
  match s.keyStart with
  | some k =>
    if k.required then .error (.unfinishedKey (k.line + 1) (k.column + 1))
    else .ok { s with keyStart := none }
  | none => .ok s

/-- Remembers that a key may begin at a cell, as a `KeyStart`. -/
def saveKey (c : Cell) (s : Scanner) : Except ReadError Scanner :=
  if s.keyAllowed then do
    let s ← s.dropKey
    let required := !s.inFlow && s.blocks.head? = some c.column
    return { s with keyStart := some ⟨s.tokens.size, c.line, c.column, c.offset, required⟩ }
  else .ok s

/-- The number of octets that a key has at most. -/
def longestKey : Nat := 1024

/-- Where the key before a colon began, if it did so on the same line and not further away than
`longestKey`. -/
def keyBefore (c : Cell) (s : Scanner) : Except ReadError (Option KeyStart) :=
  match s.keyStart with
  | some k =>
    if k.line = c.line && c.offset ≤ k.offset + longestKey then .ok (some k)
    else do
      let _ ← s.dropKey
      return none
  | none => .ok none

/-- Skips blanks, breaks and comments. After a break a key may begin; where a key may begin, a tab
is not a blank. -/
def skip (inFlow inComment keyAllowed : Bool) : List Cell → Bool × List Cell
  | [] => (keyAllowed, [])
  | c :: rest =>
    if isBreak c.char then skip inFlow false (keyAllowed || !inFlow) rest
    else if inComment then skip inFlow true keyAllowed rest
    else if c.char = ' ' || (c.char = '\t' && (inFlow || !keyAllowed)) then
      skip inFlow false keyAllowed rest
    else if c.char = '#' then skip inFlow true keyAllowed rest
    else if c.column = 0 && c.char = orderMark then skip inFlow false keyAllowed rest
    else (keyAllowed, c :: rest)

/-- The start or the end of a document, written with three signs. -/
def boundary (t : Token) (s : Scanner) : Except ReadError Scanner := do
  let s ← (s.closeBlocks 0).dropKey
  return { s.emit t with rest := s.rest.drop 3, keyAllowed := false }

/-- An opening bracket, before which a key may begin (`saveKey`). -/
def openFlow (t : Token) (c : Cell) (s : Scanner) : Except ReadError Scanner := do
  let s ← s.saveKey c
  return { s.emit t with
    rest := s.rest.drop 1, outer := s.keyStart :: s.outer, keyStart := none, keyAllowed := true }

/-- A closing bracket, at which no key can be under way any more (`dropKey`). -/
def closeFlow (t : Token) (s : Scanner) : Except ReadError Scanner := do
  let s ← s.dropKey
  let s := { s.emit t with rest := s.rest.drop 1, keyAllowed := false }
  match s.outer with
  | k :: outer => return { s with keyStart := k, outer }
  | [] => return s

/-- A comma, at which no key can be under way any more (`dropKey`). -/
def comma (s : Scanner) : Except ReadError Scanner := do
  let s ← s.dropKey
  return { s.emit .comma with rest := s.rest.drop 1, keyAllowed := true }

/-- A dash before an entry, which may open a block (`openBlock`). -/
def entry (c : Cell) (s : Scanner) : Except ReadError Scanner := do
  if !s.inFlow && !s.keyAllowed then throw c.misplaced
  let s ← (s.openBlock c.column s.tokens.size .blockSequence).dropKey
  return { s.emit .entry with rest := s.rest.drop 1, keyAllowed := true }

/-- A question mark before a key, which may open a block (`openBlock`). -/
def explicitKey (c : Cell) (s : Scanner) : Except ReadError Scanner := do
  if !s.inFlow && !s.keyAllowed then throw c.misplaced
  let s ← (s.openBlock c.column s.tokens.size .blockMapping).dropKey
  return { s.emit .key with rest := s.rest.drop 1, keyAllowed := !s.inFlow }

/-- A colon before a value; the key before it is the one that `keyBefore` finds. -/
def value (c : Cell) (s : Scanner) : Except ReadError Scanner := do
  match ← s.keyBefore c with
  | some k =>
    let s := { s with tokens := s.tokens.insertIdxIfInBounds k.position .key }
    let s := s.openBlock k.column k.position .blockMapping
    return { s.emit .value with rest := s.rest.drop 1, keyStart := none, keyAllowed := false }
  | none =>
    if !s.inFlow && !s.keyAllowed then throw c.misplaced
    let s := s.openBlock c.column s.tokens.size .blockMapping
    return { s.emit .value with
      rest := s.rest.drop 1, keyStart := none, keyAllowed := !s.inFlow }

/-- A tag, cut off by `Tag.ofCells?`. -/
def tag (c : Cell) (after : List Cell) (s : Scanner) : Except ReadError Scanner := do
  let s ← s.saveKey c
  match Tag.ofCells? after with
  | some (tag, rest) =>
    if blankOrEnd rest || (s.inFlow && next rest = some ',') then
      return { s.emit (.tag tag) with rest, keyAllowed := false }
    else throw c.misplaced
  | none => throw c.misplaced

/-- The signs that may follow the name of an anchor or a reference. -/
def endsName (c : Char) : Bool := "?:,]\x7d%@`".contains c

/-- An anchor or a reference. -/
def name (make : String → Token) (c : Cell) (after : List Cell) (s : Scanner) :
    Except ReadError Scanner := do
  let s ← s.saveKey c
  let (name, rest) := span isWordChar after
  if !name.isEmpty && (blankOrEnd rest || (next rest).any endsName) then
    return { s.emit (make (String.ofList name)) with rest, keyAllowed := false }
  else throw c.misplaced

/-- A directive, which takes a whole line and is cut off by `Directive.ofCells?`. -/
def directive (c : Cell) (after : List Cell) (s : Scanner) : Except ReadError Scanner := do
  let s ← (s.closeBlocks 0).dropKey
  match Directive.ofCells? after with
  | some (directive, rest) =>
    return { s.emit (.directive directive) with
      rest := ← lineEnd false rest, keyAllowed := false }
  | none => throw c.misplaced

/-- A block. -/
def blockScalar (style : Style) (s : Scanner) : Except ReadError Scanner := do
  let s ← s.dropKey
  let lexeme ← block (style = .folded) s.least (s.rest.drop 1)
  return { s.emit (.scalar style lexeme.text) with rest := lexeme.rest, keyAllowed := true }

/-- A quoted scalar. -/
def quoted (style : Style) (c : Cell) (s : Scanner) : Except ReadError Scanner := do
  let s ← s.saveKey c
  let inside := s.rest.drop 1
  let lexeme ← if style = .single then single [] .empty inside else double [] .empty inside
  return { s.emit (.scalar style lexeme.text) with rest := lexeme.rest, keyAllowed := false }

/-- A plain scalar, cut off by `plain`. -/
def plainScalar (c : Cell) (s : Scanner) : Except ReadError Scanner := do
  let s ← s.saveKey c
  let lexeme ← plain s.inFlow s.least [] .empty s.rest
  return { s.emit (.scalar .plain lexeme.text) with
    rest := lexeme.rest, keyAllowed := lexeme.endsLine }

/-- The signs with which no plain scalar begins. -/
def isIndicator (c : Char) : Bool := "-?:,[]\x7b\x7d#&*!|>'\"%@`".contains c

/-- Whether a plain scalar may begin with a sign that stands before others, which may even be one
that `isIndicator` tells. -/
def beginsPlain (inFlow : Bool) (c : Char) (after : List Cell) : Bool :=
  !isIndicator c && !isBlank c ||
    c = '-' && !(next after).any isBlank ||
    !inFlow && (c = '?' || c = ':') && !blankOrEnd after

/-- Cuts off the token that begins at a cell, by the function for its first sign. -/
def scan (c : Cell) (after : List Cell) (s : Scanner) : Except ReadError Scanner :=
  let separate := blankOrEnd after
  if c.column = 0 && c.char = '%' then s.directive c after
  else if atMarker '-' s.rest then s.boundary .documentStart
  else if atMarker '.' s.rest then s.boundary .documentEnd
  else match c.char with
    | '[' => s.openFlow .flowSequence c
    | '{' => s.openFlow .flowMapping c
    | ']' => s.closeFlow .flowSequenceEnd
    | '}' => s.closeFlow .flowMappingEnd
    | ',' => s.comma
    | '*' => s.name .reference c after
    | '&' => s.name .anchor c after
    | '!' => s.tag c after
    | '\'' => s.quoted .single c
    | '"' => s.quoted .double c
    | '|' => if s.inFlow then .error c.misplaced else s.blockScalar .literal
    | '>' => if s.inFlow then .error c.misplaced else s.blockScalar .folded
    | sign =>
      if sign = '-' && separate then s.entry c
      else if sign = '?' && (s.inFlow || separate) then s.explicitKey c
      else if sign = ':' && (s.inFlow || separate) then s.value c
      else if beginsPlain s.inFlow sign after then s.plainScalar c
      else .error c.misplaced

/-- Cuts off all tokens, at most `fuel` of them. -/
def run : (fuel : Nat) → Scanner → Except ReadError (List Token)
  | 0, _ => .error .unclosed
  | fuel + 1, s =>
    let (keyAllowed, rest) := skip s.inFlow false s.keyAllowed s.rest
    match rest with
    | [] => do
      let s ← (s.closeBlocks 0).dropKey
      return s.tokens.toList
    | c :: after => do
      let s := { s with keyAllowed, rest := c :: after }
      run fuel (← (s.closeBlocks (c.column + 1)).scan c after)

end Scanner

/-- The tokens of a text, by one `scan` after the other. Every token but the ends of blocks takes at
least one character. -/
def tokens (text : String) : Except ReadError (List Token) := do
  let cs ← cells text
  Scanner.run (cs.length + 1) { rest := cs }

end DurativePlanning.Yaml
