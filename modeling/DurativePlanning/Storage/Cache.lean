import DurativePlanning.Storage.Files
import DurativePlanning.Storage.Problem

/-!
# Storing Compiled Bundles

Compiling a large domain takes long, so its bundle is kept in a file. The name of the file tells the
domain, its kind and its sizes; the deadline is not part of it, since a bundle serves any deadline.

* `CacheKey.fileName`: the name of the file.
* `loadOrBuild`: the bundle from its file, or a new one.
-/

namespace DurativePlanning.Storage

open Yaml

/-- What tells stored bundles apart. -/
structure CacheKey where
  domain : String
  kind : DomainKind := .combination
  sizes : List Nat
  deriving DecidableEq, Repr

namespace CacheKey

/-- The key of a domain's bundle. -/
def ofDomain {α : Type} (d : Domain α) : CacheKey := ⟨d.name, d.kind, d.sizeParams⟩

/-- The parts of the name behind the domain: the kind, unless it is `combination`, and the sizes. -/
def parts (key : CacheKey) : List String :=
  (if key.kind = .combination then [] else [key.kind.text]) ++ key.sizes.map toString

/-- The name of the file of a key: the domain, and the `parts`. -/
def fileName (key : CacheKey) : String :=
  key.domain ++ "_comb" ++ String.join (key.parts.map ("_" ++ ·)) ++ ".yaml"

/-- The file of a key in a directory (`joinPath`). -/
def path (key : CacheKey) (directory : String) : String := joinPath directory key.fileName

end CacheKey

/-- Why a document is not loaded or saved. -/
inductive StorageError where
  | io (cause : FileError)
  | yaml (cause : ReadError)
  deriving DecidableEq, Repr

/-- The text of an error, as it is reported. -/
def StorageError.message : StorageError → String
  | io cause => s!"failed to access file: {cause.reason}"
  | yaml cause => s!"failed to (de)serialize YAML: {cause.message}"

/-- Whether a bundle came from its file. -/
inductive CacheStatus where
  | hit
  | miss
  deriving DecidableEq, Repr

/-- The word for a status in a report. -/
def CacheStatus.text : CacheStatus → String
  | hit => "hit"
  | miss => "miss"

variable {m : Type → Type} [Monad m] {β : Type}

/-- The value that a file holds, as `decode` reads it. -/
def load (files : FileAccess m) (decode : String → Except ReadError β) (path : String) :
    m (Except StorageError β) := do
  match ← files.read path with
  | .error cause => return .error (.io cause)
  | .ok text =>
    match decode text with
    | .error cause => return .error (.yaml cause)
    | .ok value => return .ok value

/-- Writes a bundle to a file, as the `codec` encodes it. -/
def saveBundle {α : Type} (files : FileAccess m) (codec : BundleCodec α) (path : String)
    (bundle : Bundle α) : m (Except StorageError Unit) := do
  match ← files.write path (codec.encode bundle) with
  | .error cause => return .error (.io cause)
  | .ok () => return .ok ()

/-- The bundle in the file of a key, or, if that cannot be read, a new one from `build`, which is
then written to the file if that can be written. Either has the given deadline. -/
def loadOrBuild {α ε : Type} (files : FileAccess m) (codec : BundleCodec α) (directory : String)
    (key : CacheKey) (deadline : Nat) (build : Unit → Except ε (Bundle α)) :
    m (Except ε (Bundle α × CacheStatus)) := do
  match ← load files codec.decode (key.path directory) with
  | .ok bundle => return .ok (bundle.withDeadline deadline, .hit)
  | .error _ =>
    match build () with
    | .error cause => return .error cause
    | .ok bundle =>
      let _ ← saveBundle files codec (key.path directory) bundle
      return .ok (bundle.withDeadline deadline, .miss)

end DurativePlanning.Storage
