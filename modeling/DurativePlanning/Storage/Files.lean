/-!
# Files

What a program does with files is written against a small set of operations, `FileAccess`. A
`FileTree` is a value that holds files and directories. A path leads through a tree step by step,
and every step but the last must lead to a directory that is there.

* `FileAccess`: reading and writing files by path.
* `FileTree`: directories and files.
* `Filing`: operations on a tree: `read`, `write`, `save`, `remove` and
  `makeDirectories`. One that fails keeps what it has done before.
* `FileTree.access`: a tree as a place to read from and write to.
-/

namespace DurativePlanning.Storage

/-- Why a file is not read or written. -/
inductive FileError where
  | absent
  | notDirectory
  | isDirectory
  /-- Something is there already. -/
  | occupied
  /-- The path can belong to nothing. -/
  | badPath
  /-- A machine gives another reason. -/
  | other (reason : String)
  deriving DecidableEq, Repr

/-- The words for a failure in a message. -/
def FileError.reason : FileError → String
  | absent => "no such file or directory"
  | notDirectory => "not a directory"
  | isDirectory => "is a directory"
  | occupied => "file exists"
  | badPath => "invalid file name"
  | other reason => reason

/-- Reading and writing files by path. Writing makes the directories on the way to the file. -/
structure FileAccess (m : Type → Type) where
  read : String → m (Except FileError String)
  write : String → String → m (Except FileError Unit)

/-- The path of a file in a directory. A file with a path from the top stays where it is. -/
def joinPath (directory file : String) : String :=
  if directory.isEmpty || file.startsWith "/" then file
  else if directory.endsWith "/" then directory ++ file
  else directory ++ "/" ++ file

/-! ### Trees -/

/-- What there is at a place. -/
inductive FileEntry where
  | file (text : String)
  | directory
  deriving DecidableEq, Repr

/-- A place in a tree: the names that lead to it, the last one first. -/
abbrev Place := List String

/-- Directories and files by place. -/
structure FileTree where
  entries : List (Place × FileEntry) := [(["home"], .directory)]
  /-- Where the paths begin that do not begin at the top. -/
  home : Place := ["home"]

instance : Inhabited FileTree := ⟨{}⟩

namespace FileTree

/-- What there is at a place; the top is always a directory. -/
def get? (t : FileTree) (place : Place) : Option FileEntry :=
  if place.isEmpty then some .directory else t.entries.lookup place

/-- The tree with something at a place; what was there before is gone. -/
def put (place : Place) (entry : FileEntry) (t : FileTree) : FileTree :=
  { t with entries := (place, entry) :: t.entries.filter fun e => e.1 != place }

/-- The tree with nothing at a place. -/
def erase (place : Place) (t : FileTree) : FileTree :=
  { t with entries := t.entries.filter fun e => e.1 != place }

/-- The paths from the home directory to all files in it, in ascending order. -/
def files (t : FileTree) : List String :=
  (t.entries.filterMap fun (place, entry) =>
    let path := place.reverse
    if entry = .directory || path.take t.home.length != t.home.reverse then none
    else some ("/".intercalate (path.drop t.home.length))).mergeSort

end FileTree

/-! ### Paths -/

/-- The pieces of a path between its slashes, the last one first. A piece is a name, two dots to go
back, or one dot or nothing at all to stay. -/
def piecesOf (path : String) : List String := (path.splitOn "/").reverse

/-- Whether a piece of a path stays. -/
def stays (piece : String) : Bool := piece.isEmpty || piece = "."

/-- The number of octets that a name has at most. -/
def longestName : Nat := 255

/-- The number of octets that a path has at most. -/
def longestPath : Nat := 4095

/-- Whether the path with these pieces can belong to something: it is not longer than `longestPath`,
and has no zero character in it. -/
def isPath (back : List String) : Bool :=
  let path := "/".intercalate back.reverse
  path.utf8ByteSize ≤ longestPath && !path.contains '\x00'

/-- The pieces of the path to where the last piece begins that does not stay (`stays`). -/
def parent (back : List String) : List String :=
  (back.dropWhile stays).tail.dropWhile stays

/-- `parent` takes at least one piece away, so that making directories comes to an end. -/
theorem length_parent_lt {back : List String} (h : back ≠ []) :
    (parent back).length < back.length := by
  have := (List.dropWhile_sublist (l := back) stays).length_le
  have := (List.dropWhile_sublist (l := (back.dropWhile stays).tail) stays).length_le
  have := List.length_tail (l := back.dropWhile stays)
  have := List.length_pos_iff.2 h
  simp only [parent]
  omega

namespace FileTree

/-- Where the path with these pieces begins: at the top when a slash comes first. -/
def start (t : FileTree) (back : List String) : Place :=
  if 1 < back.length ∧ back.getLast? = some "" then [] else t.home

/-- The place that a piece of a path leads to. It must begin at a directory, but need not lead to
something; a name longer than `longestName` is a `badPath`. -/
def step (t : FileTree) (place : Place) (piece : String) : Except FileError Place :=
  match t.get? place with
  | none => .error .absent
  | some (.file _) => .error .notDirectory
  | some .directory =>
    if stays piece then .ok place
    else if piece = ".." then .ok place.tail
    else if piece.utf8ByteSize ≤ longestName then .ok (piece :: place)
    else .error .badPath

/-- The place that the path with these pieces leads to, by one `step` per piece from `start`. -/
def placeOf (t : FileTree) (back : List String) : Except FileError Place :=
  if isPath back then back.reverse.foldlM t.step (t.start back) else .error .badPath

/-- The place that the path with these pieces leads to when it need not be there: slashes at its
end count for nothing. -/
def newPlaceOf (t : FileTree) (back : List String) : Except FileError Place :=
  if isPath back then (back.dropWhile (·.isEmpty)).reverse.foldlM t.step (t.start back)
  else .error .badPath

/-- Whether the path with these pieces leads to a directory (`placeOf`). -/
def leadsToDirectory (t : FileTree) (back : List String) : Bool :=
  match t.placeOf back with
  | .ok place => t.get? place = some .directory
  | .error _ => false

end FileTree

/-! ### Operations -/

/-- Operations on a tree that may fail; what was changed before a failure stays changed. -/
abbrev Filing := ExceptT FileError (StateM FileTree)

namespace Filing

/-- The text of the file at a path. -/
def read (path : String) : Filing String := do
  let place ← (← get).placeOf (piecesOf path)
  match (← get).get? place with
  | some (.file text) => return text
  | some .directory => throw .isDirectory
  | none => throw .absent

/-- Writes a file into a directory that is there. -/
def write (path text : String) : Filing Unit := do
  let place ← (← get).placeOf (piecesOf path)
  match (← get).get? place with
  | some .directory => throw .isDirectory
  | _ => modify (·.put place (.file text))

/-- Takes a file away. -/
def remove (path : String) : Filing Unit := do
  let _ ← read path
  let place ← (← get).placeOf (piecesOf path)
  modify (·.erase place)

/-- Makes a directory, given by the pieces of its path, in a directory that is there; `occupied` if
something is at its place. -/
def makeLast (back : List String) : Filing Unit := do
  let place ← (← get).newPlaceOf back
  if ((← get).get? place).isSome then throw .occupied
  modify (·.put place .directory)

/-- Fails for some cause, except where the path with these pieces leads to a directory. -/
def unlessDirectory (back : List String) (cause : FileError) : Filing Unit := do
  if !(← get).leadsToDirectory back then throw cause

/-- Makes a directory, given by the pieces of its path, and the directories on the way to it:
`makeLast`, and after `absent` the same for the parent. -/
def makeAll : (back : List String) → Filing Unit
  | [] => pure ()
  | piece :: before =>
    tryCatch (makeLast (piece :: before)) fun
      | .absent => do
        makeAll (parent (piece :: before))
        tryCatch (makeLast (piece :: before)) (unlessDirectory (piece :: before))
      | cause => unlessDirectory (piece :: before) cause
termination_by back => back.length
decreasing_by exact length_parent_lt (List.cons_ne_nil _ _)

/-- Makes a directory and the directories on the way to it (`makeAll`). -/
def makeDirectories (path : String) : Filing Unit := makeAll (piecesOf path)

/-- Writes a file and makes the directories on the way to it: `makeAll` for the parent, then
`write`. -/
def save (path text : String) : Filing Unit := do
  makeAll (parent (piecesOf path))
  write path text

end Filing

/-- A tree as a place to read from and write to, by `Filing.read` and `Filing.save`. -/
def FileTree.access : FileAccess (StateM FileTree) where
  read path := (Filing.read path).run
  write path text := (Filing.save path text).run

end DurativePlanning.Storage
