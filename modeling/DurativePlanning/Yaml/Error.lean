/-!
# Why a Document is Refused

* `ReadError`: the causes.
-/

namespace DurativePlanning.Yaml

/-- Why a document is refused. Lines and columns count from one. -/
inductive ReadError where
  /-- A control character. -/
  | forbidden (c : Char)
  /-- Something stands where nothing of its kind may stand. -/
  | misplaced (line column : Nat)
  /-- A key without a colon. -/
  | unfinishedKey (line column : Nat)
  /-- A quoted text or a collection is still open at the end. -/
  | unclosed
  /-- An escape that means nothing. -/
  | badEscape (line column : Nat)
  /-- Something follows the document. -/
  | notAlone
  /-- A line before the document repeats or contradicts another, or asks for too much. -/
  | badDirective
  /-- A tag begins with a handle that stands for nothing. -/
  | unknownHandle (handle : String)
  /-- A reference stands for nothing. -/
  | unknownAnchor (name : String)
  /-- References are followed too often. -/
  | tooManyReferences
  /-- A value is not of the kind that is asked for. -/
  | wrongValue (expected : String)
  | missingField (name : String)
  | repeatedField (name : String)
  deriving DecidableEq, Repr

/-- The text of an error, as it is reported. -/
def ReadError.message : ReadError → String
  | forbidden c => s!"control character number {c.toNat} is not allowed"
  | misplaced line column => s!"nothing of this kind may stand at line {line}, column {column}"
  | unfinishedKey line column => s!"the key at line {line}, column {column} has no colon"
  | unclosed => "the document ends too early"
  | badEscape line column => s!"unknown escape at line {line}, column {column}"
  | notAlone => "a single document is expected"
  | badDirective => "the lines before the document are not understood"
  | unknownHandle handle => s!"the handle {handle} stands for nothing"
  | unknownAnchor name => s!"the reference {name} stands for nothing"
  | tooManyReferences => "references are followed too often"
  | wrongValue expected => s!"expected {expected}"
  | missingField name => s!"missing field '{name}'"
  | repeatedField name => s!"repeated field '{name}'"

end DurativePlanning.Yaml
