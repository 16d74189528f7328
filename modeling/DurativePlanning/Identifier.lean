/-!
# Identifiers

Types, objects, fluents, schemas and atoms are numbered in the order in which they are declared, and
each kind of number has a type of its own. A table is far shorter than `2 ^ 32`, so a declaration's
number is its position; a number that comes from outside is cut to its low thirty-two bits.

* `word32`: the low thirty-two bits of a number.
* `TypeId`, `ObjectId`, `FluentId`, `SchemaId`, `AtomId`: the five kinds of identifier.
-/

namespace DurativePlanning

/-- The low thirty-two bits of a number, which is what an identifier made of it keeps. -/
def word32 (n : Nat) : Nat := n % UInt32.size

/-- The position of a type in its universe. -/
structure TypeId where
  index : Nat
  deriving DecidableEq, Repr, Inhabited, Hashable

/-- The position of an object in its universe. -/
structure ObjectId where
  index : Nat
  deriving DecidableEq, Repr, Inhabited, Hashable

/-- The position of a fluent in its universe. -/
structure FluentId where
  index : Nat
  deriving DecidableEq, Repr, Inhabited, Hashable

/-- The position of an action schema in its domain. -/
structure SchemaId where
  index : Nat
  deriving DecidableEq, Repr, Inhabited, Hashable

/-- The position of a ground fluent in an atom table. -/
structure AtomId where
  index : Nat
  deriving DecidableEq, Repr, Inhabited, Hashable

/-- The type with a given number, cut by `word32`. -/
def TypeId.ofNumber (n : Nat) : TypeId := ⟨word32 n⟩

/-- The object with a given number, cut by `word32`. -/
def ObjectId.ofNumber (n : Nat) : ObjectId := ⟨word32 n⟩

/-- The fluent with a given number, cut by `word32`. -/
def FluentId.ofNumber (n : Nat) : FluentId := ⟨word32 n⟩

/-- The schema with a given number, cut by `word32`. -/
def SchemaId.ofNumber (n : Nat) : SchemaId := ⟨word32 n⟩

/-- The atom with a given number, cut by `word32`. -/
def AtomId.ofNumber (n : Nat) : AtomId := ⟨word32 n⟩

/-- A number of thirty-two bits is not cut by `word32`. -/
theorem word32_of_lt {n : Nat} (h : n < UInt32.size) : word32 n = n := Nat.mod_eq_of_lt h

end DurativePlanning
