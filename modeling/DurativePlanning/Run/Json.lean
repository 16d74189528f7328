import DurativePlanning.Decimal.Layout

/-!
# Reports for Programs

A report for programs is a tree of named values, written on indented lines.

* `Json`: the trees.
* `Json.print`: the lines of a tree.
-/

namespace DurativePlanning

/-- A tree of values. -/
inductive Json where
  | absent
  | number (n : Nat)
  | decimal (x : Float)
  | text (s : String)
  | list (items : List Json)
  | record (fields : List (String × Json))

namespace Json

/-- A value that may be absent. -/
def ofOption {β : Type} (f : β → Json) : Option β → Json
  | some x => f x
  | none => absent

/-- The letters after the backslash for signs that are escaped so. -/
def escapes : List (Char × Char) :=
  [('"', '"'), ('\\', '\\'), ('\x08', 'b'), ('\x0c', 'f'), ('\n', 'n'), ('\r', 'r'), ('\t', 't')]

/-- The digits of a number below 256 to base sixteen. -/
def hexPair (n : Nat) : List Char :=
  let digits := Nat.toDigits 16 n
  if digits.length < 2 then '0' :: digits else digits

/-- A sign between quotes: with a letter of `escapes`, as a `hexPair` below a blank, or as it is. -/
def escape (c : Char) : List Char :=
  match escapes.lookup c with
  | some letter => ['\\', letter]
  | none => if c.toNat < 0x20 then '\\' :: 'u' :: '0' :: '0' :: hexPair c.toNat else [c]

/-- A text between quotes, with each sign in the form of `escape`. -/
def quote (s : String) : String := "\"" ++ String.ofList (s.toList.flatMap escape) ++ "\""

/-- Lines between two brackets, indented further than the brackets; nothing between them if there
are no lines. -/
def bracket (first last : String) (indent : Nat) (lines : List String) : String :=
  if lines.isEmpty then first ++ last else
  let inner := "\n" ++ String.ofList (List.replicate (indent + 2) ' ')
  let outer := "\n" ++ String.ofList (List.replicate indent ' ')
  first ++ inner ++ ("," ++ inner).intercalate lines ++ outer ++ last

mutual

/-- A tree on lines of which all but the first are indented. -/
def printAt (indent : Nat) : Json → String
  | absent => "null"
  | number n => toString n
  | decimal x => Layout.report.text x
  | text s => quote s
  | list items => bracket "[" "]" indent (printItems (indent + 2) items)
  | record fields => bracket "\x7b" "\x7d" indent (printFields (indent + 2) fields)

/-- The texts of some trees. -/
def printItems (indent : Nat) : List Json → List String
  | [] => []
  | item :: rest => printAt indent item :: printItems indent rest

/-- The texts of some named trees. -/
def printFields (indent : Nat) : List (String × Json) → List String
  | [] => []
  | (name, value) :: rest =>
    (quote name ++ ": " ++ printAt indent value) :: printFields indent rest

end

/-- The lines of a tree, from `printAt` without indentation. -/
def print (tree : Json) : String := tree.printAt 0 ++ "\n"

end Json

end DurativePlanning
