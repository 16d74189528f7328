import DurativePlanning.Error
import DurativePlanning.Fluent

/-!
# The Universe of Declarations

A universe lists types, objects of those types, and fluents over those types, each in order of
declaration. Names are unique within each of the three lists. A declaration that is asked for is
answered with its identifier or with a refusal, and with the universe that is left behind in either
case.

* `Universe.declareType`, `Universe.declareObject`, `Universe.declareFluent`: one declaration, and
  the universe after it, accepted or refused.
* `Universe.addType`, `Universe.addObject`, `Universe.addFluent`: the same for those who stop at the
  first refusal.
* `Universe.checkSignature`: whether a ground fluent fits its declaration.
* `Universe.describe`: a ground fluent in words.
-/

namespace DurativePlanning

/-- The declaration of a type. -/
structure TypeDecl where
  name : String
  deriving DecidableEq, Repr

/-- The declaration of an object, with its type. -/
structure ObjectDecl where
  name : String
  type : TypeId
  deriving DecidableEq, Repr

/-- A fluent, the types of its arguments, and the value that its instances have initially
(`default`) unless the domain says otherwise. -/
structure FluentDecl where
  name : String
  params : List TypeId
  default : Bool
  deriving DecidableEq, Repr

/-- The declared types, objects and fluents, each at the position that its identifier names. -/
structure Universe where
  types : Array TypeDecl := #[]
  objects : Array ObjectDecl := #[]
  fluents : Array FluentDecl := #[]
  deriving DecidableEq, Repr

/-- A name applied to arguments; without arguments the name alone. -/
def applied (name : String) (args : List String) : String :=
  if args.isEmpty then name else name ++ "(" ++ ", ".intercalate args ++ ")"

namespace Universe

/-- The universe without declarations. -/
def empty : Universe := {}

/-- The declaration of a type. -/
def type? (u : Universe) (id : TypeId) : Option TypeDecl := u.types[id.index]?

/-- The declaration of an object. -/
def object? (u : Universe) (id : ObjectId) : Option ObjectDecl := u.objects[id.index]?

/-- The declaration of a fluent. -/
def fluent? (u : Universe) (id : FluentId) : Option FluentDecl := u.fluents[id.index]?

/-! ### Declaring -/

/-- What comes of **asking for a declaration**: its identifier or why it was refused, and the
universe `after` that, which is there in either case. -/
structure Answer (β : Type) where
  result : Except ModelError β
  after : Universe

/-- Goes on with the identifier and the universe of an `Answer`, and stops at a refusal. -/
def Answer.accepted {β : Type} (answer : Answer β) : Except ModelError (β × Universe) :=
  (·, answer.after) <$> answer.result

/-- Declares a type, unless its name is taken. -/
def declareType (u : Universe) (name : String) : Answer TypeId :=
  if u.types.any (·.name == name) then ⟨.error (.duplicateName .type name), u⟩
  else ⟨.ok ⟨u.types.size⟩, { u with types := u.types.push ⟨name⟩ }⟩

/-- Declares an object; a missing type is noticed before a name that is taken. -/
def declareObject (u : Universe) (name : String) (type : TypeId) : Answer ObjectId :=
  if (u.type? type).isNone then ⟨.error (.unknownType (.numbered type.index)), u⟩
  else if u.objects.any (·.name == name) then ⟨.error (.duplicateName .object name), u⟩
  else ⟨.ok ⟨u.objects.size⟩, { u with objects := u.objects.push ⟨name, type⟩ }⟩

/-- Declares a fluent; the first missing parameter type is noticed before a name that is taken. -/
def declareFluent (u : Universe) (name : String) (params : List TypeId) (default : Bool) :
    Answer FluentId :=
  match params.find? fun type => (u.type? type).isNone with
  | some missing => ⟨.error (.unknownType (.numbered missing.index)), u⟩
  | none =>
    if u.fluents.any (·.name == name) then ⟨.error (.duplicateName .fluent name), u⟩
    else ⟨.ok ⟨u.fluents.size⟩, { u with fluents := u.fluents.push ⟨name, params, default⟩ }⟩

/-- `declareType`, up to the first refusal. -/
def addType (u : Universe) (name : String) : Except ModelError (TypeId × Universe) :=
  (u.declareType name).accepted

/-- `declareObject`, up to the first refusal. -/
def addObject (u : Universe) (name : String) (type : TypeId) :
    Except ModelError (ObjectId × Universe) :=
  (u.declareObject name type).accepted

/-- `declareFluent`, up to the first refusal. -/
def addFluent (u : Universe) (name : String) (params : List TypeId) (default : Bool) :
    Except ModelError (FluentId × Universe) :=
  (u.declareFluent name params default).accepted

/-! ### Looking up -/

/-- The type with a given name, or `ModelError.unknownType`. -/
def typeId (u : Universe) (name : String) : Except ModelError TypeId :=
  match u.types.findIdx? (·.name == name) with
  | some i => .ok ⟨i⟩
  | none => .error (.unknownType (.named name))

/-- The object with a given name, or `ModelError.unknownObject`. -/
def objectId (u : Universe) (name : String) : Except ModelError ObjectId :=
  match u.objects.findIdx? (·.name == name) with
  | some i => .ok ⟨i⟩
  | none => .error (.unknownObject (.named name))

/-- The fluent with a given name, or `ModelError.unknownFluent`. -/
def fluentId (u : Universe) (name : String) : Except ModelError FluentId :=
  match u.fluents.findIdx? (·.name == name) with
  | some i => .ok ⟨i⟩
  | none => .error (.unknownFluent (.named name))

/-- The type of an object, if it is declared. -/
def typeOf? (u : Universe) (id : ObjectId) : Option TypeId := (u.object? id).map (·.type)

/-- All objects in order of declaration. -/
def allObjects (u : Universe) : List ObjectId := (List.range u.objects.size).map ObjectId.mk

/-- All fluents in order of declaration. -/
def allFluents (u : Universe) : List FluentId := (List.range u.fluents.size).map FluentId.mk

/-- The objects whose `typeOf?` is a given type, in order of declaration. -/
def objectsOf (u : Universe) (type : TypeId) : List ObjectId :=
  u.allObjects.filter fun id => u.typeOf? id == some type

/-! ### Names in words -/

/-- The name of a type, or its number as a `Reference` when it is not declared. -/
def typeName (u : Universe) (id : TypeId) : String :=
  match u.type? id with
  | some decl => decl.name
  | none => (Reference.numbered id.index).text

/-- The name of an object, or its number as a `Reference` when it is not declared. -/
def objectName (u : Universe) (id : ObjectId) : String :=
  match u.object? id with
  | some decl => decl.name
  | none => (Reference.numbered id.index).text

/-- The name of a fluent, or its number as a `Reference` when it is not declared. -/
def fluentName (u : Universe) (id : FluentId) : String :=
  match u.fluent? id with
  | some decl => decl.name
  | none => (Reference.numbered id.index).text

/-- A ground fluent in words: `applied` to the names of its arguments. -/
def describe (u : Universe) (f : GroundFluent) : String :=
  applied (u.fluentName f.fluent) (f.args.map u.objectName)

/-! ### Signatures -/

/-- Whether objects have the expected types, place by place; the first that does not is reported. -/
def checkArguments (u : Universe) (fluent : String) :
    (position : Nat) → List TypeId → List ObjectId → Except ModelError Unit
  | position, expected :: types, object :: objects =>
    match u.object? object with
    | none => .error (.unknownObject (.numbered object.index))
    | some decl =>
      if decl.type = expected then checkArguments u fluent (position + 1) types objects
      else .error (.signatureMismatch fluent
        (.argument position (u.typeName expected) decl.name (u.typeName decl.type)))
  | _, _, _ => .ok ()

/-- Whether a ground fluent fits its declaration: the fluent is declared, the count of arguments is
right, and each argument is an object of the declared type (`checkArguments`). -/
def checkSignature (u : Universe) (f : GroundFluent) : Except ModelError Unit :=
  match u.fluent? f.fluent with
  | none => .error (.unknownFluent (.numbered f.fluent.index))
  | some decl =>
    if decl.params.length = f.args.length then u.checkArguments decl.name 0 decl.params f.args
    else .error (.signatureMismatch decl.name (.arity decl.params.length f.args.length))

end Universe

end DurativePlanning
