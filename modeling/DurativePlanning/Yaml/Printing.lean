import DurativePlanning.Yaml.Value

/-!
# Writing Documents

A node is written on lines of its own, its members indented by two columns, those of a sequence
behind a key not at all. A text is written plain where it reads back as it is; otherwise in single
quotes, or in double quotes with escapes where single ones will not do; and one with line breaks as
a block.

* `Node.ofString`: a text, in the style in which it is written.
* `Node.print`: the document of a node.
-/

namespace DurativePlanning.Yaml

/-! ### Choosing a style -/

/-- Whether a text reads back as something else than a text, as `null`, a truth value or a
number. -/
def readsOtherwise (text : String) : Bool :=
  let chars := text.toList
  let hexNegative := match chars with
    | '-' :: '0' :: mark :: rest => "xob".contains mark && (readWhole? ('0' :: mark :: rest)).any
        (· ≤ 1 <<< 127)
    | _ => false
  text.isEmpty || isNull text || (readBool? text).isSome ||
    (readWhole? chars).any (· < 1 <<< 128) || hexNegative || isPadded chars ||
    (readFloat? text).isSome

/-- The characters that are written as they are. -/
def isPrintable (c : Char) : Bool :=
  let n := c.toNat
  n = 0xA || (0x20 ≤ n && n ≤ 0x7E) || (0xA0 ≤ n && n ≤ 0xFFFD && c ≠ orderMark) ||
    0x10000 ≤ n

/-- Whether a character that satisfies `p` is followed by one that satisfies `q`. -/
def meets (p q : Char → Bool) : List Char → Bool
  | a :: b :: rest => p a && q b || meets p q (b :: rest)
  | _ => false

/-- A space, as opposed to a tab. -/
def isSpace (c : Char) : Bool := c = ' '

/-- Whether a blank, a break or nothing is in front. -/
def isSeparated (chars : List Char) : Bool := chars.head?.all fun c => isBlank c || isBreak c

/-- Whether the signs in a text would be read as signs of the document. -/
def hasIndicator (chars : List Char) : Bool :=
  let opening := match chars with
    | c :: rest => "#,[]\x7b\x7d&*!|>'\"%@`".contains c || ("?:-".contains c && isSeparated rest)
    | [] => false
  let marker := chars.take 3 = ['-', '-', '-'] || chars.take 3 = ['.', '.', '.']
  opening || marker || meets (· = ':') (fun c => isBlank c || isBreak c) chars ||
    chars.getLast? = some ':' || meets (fun c => isBlank c || isBreak c) (· = '#') chars

/-- Whether a text can be written in quotes that know no escapes: all of it `isPrintable`, and no
blank meets a break. -/
def fitsSingle (chars : List Char) : Bool :=
  chars.all isPrintable && !meets isSpace isBreak chars && !meets isBreak isSpace chars

/-- Whether a text can be written as a block: as in `fitsSingle`, and without a blank at its end. -/
def fitsBlock (chars : List Char) : Bool :=
  chars.all isPrintable && !meets isSpace isBreak chars && !chars.getLast?.any isSpace

/-- Whether a text can be written plain: no break, no blank at its ends, and no sign that
`hasIndicator` finds. -/
def fitsPlain (chars : List Char) : Bool :=
  chars.all isPrintable && !chars.any isBreak && !chars.head?.any isSpace &&
    !chars.getLast?.any isSpace && !hasIndicator chars

/-- The style in which a text is written: plain or in single quotes if it fits, a block over several
lines, and double quotes for all else. -/
def styleOf (text : String) : Style :=
  let chars := text.toList
  if chars.contains '\n' then if fitsBlock chars then .literal else .double
  else if !readsOtherwise text && fitsPlain chars then .plain
  else if fitsSingle chars then .single
  else .double

/-- A text, in the style that `styleOf` picks. -/
def Node.ofString (text : String) : Node := .scalar none (styleOf text) text

instance : Stored String where
  toNode := Node.ofString
  ofNode := Node.text

/-! ### Scalars -/

/-- `count` blanks. -/
def pad (count : Nat) : String := String.ofList (List.replicate count ' ')

/-- A text with `indent` blanks before every line that is not empty; before its first line only if
that follows a break. -/
def indentLines (indent : Nat) (afterBreak : Bool) : List Char → List Char
  | [] => []
  | c :: rest =>
    if isBreak c then c :: indentLines indent true rest
    else if afterBreak then List.replicate indent ' ' ++ c :: indentLines indent false rest
    else c :: indentLines indent false rest

/-- A digit to base sixteen. -/
def hexDigit (n : Nat) : Char :=
  if n < 10 then Char.ofNat ('0'.toNat + n) else Char.ofNat ('A'.toNat + (n - 10))

/-- The last `count` digits of a number to base sixteen. -/
def hexDigits : (count n : Nat) → List Char
  | 0, _ => []
  | count + 1, n => hexDigits count (n / 16) ++ [hexDigit (n % 16)]

/-- The letters of the escapes that are written. -/
def writtenEscapes : List (Char × Char) :=
  [('\x00', '0'), ('\x07', 'a'), ('\x08', 'b'), ('\t', 't'), ('\n', 'n'), ('\x0b', 'v'),
    ('\x0c', 'f'), ('\r', 'r'), ('\x1b', 'e'), ('"', '"'), ('\\', '\\'), ('\x85', 'N'),
    ('\u2028', 'L'), ('\u2029', 'P')]

/-- A character between double quotes: with a letter of `writtenEscapes`, as it is, or by its
digits. -/
def escapeChar (c : Char) : List Char :=
  match writtenEscapes.lookup c with
  | some letter => ['\\', letter]
  | none =>
    if isPrintable c then [c]
    else if c.toNat ≤ 0xFF then '\\' :: 'x' :: hexDigits 2 c.toNat
    else if c.toNat ≤ 0xFFFF then '\\' :: 'u' :: hexDigits 4 c.toNat
    else '\\' :: 'U' :: hexDigits 8 c.toNat

/-- The signs behind the mark of a block: an indentation that the text does not show, and whether
one, none or several breaks end it. -/
def blockSigns (chars : List Char) : String :=
  let indentation := if chars.head?.any (fun c => isSpace c || isBreak c) then "2" else ""
  let ending := match chars.reverse with
    | [c] => if isBreak c then "+" else "-"
    | c :: d :: _ => if !isBreak c then "-" else if isBreak d then "+" else ""
    | [] => "-"
  indentation ++ ending

/-- A scalar among lines that are indented by `indent` if there are several. -/
def printScalar (indent : Nat) (style : Style) (text : String) : String :=
  let chars := text.toList
  match style with
  | .plain => text
  | .single =>
    let doubled := chars.flatMap fun c => if c = '\'' then ['\'', '\''] else [c]
    "'" ++ String.ofList (indentLines indent false (doubled ++ ['\'']))
  | .double => "\"" ++ String.ofList (chars.flatMap escapeChar) ++ "\""
  | .literal | .folded =>
    "|" ++ blockSigns chars ++ "\n" ++ String.ofList (indentLines indent true chars)

/-! ### Nodes -/

/-- A text with a break at its end. -/
def endLine (text : String) : String :=
  if text.toList.getLast?.any isBreak then text else text ++ "\n"

namespace Node

/-- A tag, set off from what is before it. -/
def printTag : Option String → String
  | some tag => " " ++ tag
  | none => ""

mutual

/-- A node behind a key on lines indented by `indent`. -/
def printValue (indent : Nat) : Node → String
  | reference number => s!" *{number}\n"
  | scalar tag style text => printTag tag ++ " " ++ endLine (printScalar (indent + 2) style text)
  | sequence tag [] => printTag tag ++ " []\n"
  | sequence tag items =>
    printTag tag ++ "\n" ++ pad indent ++ (pad indent).intercalate (printItems indent items)
  | mapping tag [] => printTag tag ++ " \x7b\x7d\n"
  | mapping tag entries =>
    printTag tag ++ "\n" ++ pad (indent + 2) ++
      (pad (indent + 2)).intercalate (printEntries (indent + 2) entries)

/-- A node behind a dash on lines indented by `indent`. -/
def printItem (indent : Nat) : Node → String
  | reference number => s!" *{number}\n"
  | scalar tag style text => printTag tag ++ " " ++ endLine (printScalar (indent + 2) style text)
  | sequence tag [] => printTag tag ++ " []\n"
  | sequence tag items =>
    (if tag.isNone then " " else printTag tag ++ "\n" ++ pad (indent + 2)) ++
      (pad (indent + 2)).intercalate (printItems (indent + 2) items)
  | mapping tag [] => printTag tag ++ " \x7b\x7d\n"
  | mapping tag entries =>
    (if tag.isNone then " " else printTag tag ++ "\n" ++ pad (indent + 2)) ++
      (pad (indent + 2)).intercalate (printEntries (indent + 2) entries)

/-- The members of a sequence on lines indented by `indent`, each without its indentation. -/
def printItems (indent : Nat) : List Node → List String
  | [] => []
  | item :: rest => ("-" ++ printItem indent item) :: printItems indent rest

/-- The fields of a mapping on lines indented by `indent`, each without its indentation. -/
def printEntries (indent : Nat) : List (Node × Node) → List String
  | [] => []
  | (key, value) :: rest =>
    ((match key with
      | scalar _ style text => printScalar (indent + 2) style text
      | _ => "?") ++ ":" ++ printValue indent value) :: printEntries indent rest

end

/-- The document of a node. -/
def print : Node → String
  | reference number => s!"*{number}\n"
  | scalar tag style text => printTag tag ++ endLine (printScalar 2 style text)
  | sequence _ [] => "[]\n"
  | sequence _ items => String.join (printItems 0 items)
  | mapping _ [] => "\x7b\x7d\n"
  | mapping _ entries => String.join (printEntries 0 entries)

end Node

/-- The document of a value: `toNode`, and then `print`. -/
def write {β : Type} [Stored β] (x : β) : String := (toNode x).print

/-- The value in a document: `Document.ofText`, and then `ofNode`. -/
def read {β : Type} [Stored β] (text : String) : Except ReadError β := do
  (← Document.ofText text).value ofNode

end DurativePlanning.Yaml
