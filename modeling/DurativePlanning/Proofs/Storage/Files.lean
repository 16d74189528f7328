import DurativePlanning.Proofs.Checks
import DurativePlanning.Storage.Files
import Mathlib.Data.List.Basic
import Mathlib.Data.String.Basic

/-!
# What Files Keep

The cache relies on one thing only: that a text read from a file was written to a file of the same
name. Reading and writing may fail at any time, and one file may be reached by several paths, as
long as these end in the same name. A tree of files is such a place.

* `piecesOf_joinPath`: the path of a file in a directory ends in the name of the file.
* `FileAccess.Keeps`: what is read was held before, and a file holds what was written.
* `FileTree.keeps_access`: a tree of files keeps what is written.
-/

namespace DurativePlanning.Storage

/-! ### Paths -/

/-- Cutting a text at its slashes is cutting its characters. The text is cut from the left: `seen` is
what lies before the piece that has begun, and `rest` is yet to be read. -/
theorem splitOnAux_slash (seen piece rest : List Char) (pieces : List String) :
    String.splitOnAux (String.ofList (seen ++ piece ++ rest)) "/" ⟨String.utf8Len seen⟩
        ⟨String.utf8Len seen + String.utf8Len piece⟩ 0 pieces =
      pieces.reverse ++
        (List.splitOnPPrepend (· == '/') rest piece.reverse).map String.ofList := by
  induction rest generalizing seen piece pieces with
  | nil =>
    have hend : String.Pos.Raw.atEnd (String.ofList (seen ++ piece ++ []))
        ⟨String.utf8Len seen + String.utf8Len piece⟩ = true := by
      simp [-String.ofList_append]
    rw [String.splitOnAux, if_pos hend, String.extract_of_valid]
    simp
  | cons c rest ih =>
    have hend : String.Pos.Raw.atEnd (String.ofList (seen ++ piece ++ c :: rest))
        ⟨String.utf8Len seen + String.utf8Len piece⟩ = false := by
      have := Char.utf8Size_pos c
      rw [Bool.eq_false_iff, Ne, String.atEnd_iff, String.rawEndPos_ofList, String.Pos.Raw.le_iff]
      simp only [String.utf8Len_append, String.utf8Len_cons]
      omega
    have hget : String.Pos.Raw.get (String.ofList (seen ++ piece ++ c :: rest))
        ⟨String.utf8Len seen + String.utf8Len piece⟩ = c := by
      simpa [-String.ofList_append] using String.get_of_valid (seen ++ piece) (c :: rest)
    have hnext : String.Pos.Raw.next (String.ofList (seen ++ piece ++ c :: rest))
        ⟨String.utf8Len seen + String.utf8Len piece⟩ =
          ⟨String.utf8Len seen + String.utf8Len piece + c.utf8Size⟩ := by
      simpa [-String.ofList_append] using String.next_of_valid (seen ++ piece) c rest
    have hextract := String.extract_of_valid seen piece (c :: rest)
    have hslash : String.Pos.Raw.get "/" 0 = '/' := by decide
    have hwhole : String.Pos.Raw.atEnd "/" (String.Pos.Raw.next "/" 0) = true := by decide
    have hstep : String.Pos.Raw.next "/" 0 = ⟨1⟩ := by decide
    have hstay : ∀ i : String.Pos.Raw, i.unoffsetBy 0 = i := fun _ => rfl
    rw [String.splitOnAux]
    by_cases hc : c = '/'
    · subst hc
      have hsize : '/'.utf8Size = 1 := by decide
      have hrest := ih (seen ++ piece ++ ['/']) [] (String.ofList piece :: pieces)
      simp only [hend, hget, hnext, hslash, hwhole, beq_self_eq_true, if_true, Bool.false_eq_true,
        if_false]
      simp only [List.append_assoc, List.append_nil, List.cons_append, List.nil_append,
        String.utf8Len_append, String.utf8Len_cons, String.utf8Len_nil, hsize, zero_add, add_zero,
        List.reverse_cons, List.reverse_nil, List.splitOnPPrepend_nil_right, Nat.add_assoc,
        String.Pos.Raw.unoffsetBy, hstep, Nat.add_succ_sub_one, BEq.rfl,
        List.splitOnPPrepend_cons_pos, List.reverse_reverse, List.map_cons] at hrest hextract ⊢
      rw [hextract, hrest]
    · have hrest := ih seen (piece ++ [c]) pieces
      simp only [hend, hget, hslash, beq_iff_eq, hc, Bool.false_eq_true, if_false, hstay, hnext]
      simpa [-String.ofList_append, Nat.add_assoc, List.splitOnPPrepend_cons_neg, hc] using hrest

/-- A path is split at its slashes, character by character. -/
theorem splitOn_slash (path : String) :
    path.splitOn "/" = (path.toList.splitOn '/').map String.ofList := by
  have h := splitOnAux_slash [] [] path.toList []
  simpa [String.splitOn, List.splitOn] using h

/-- A name that a file can have in a directory: one piece of a path, which leads on. -/
def IsFileName (name : String) : Prop := '/' ∉ name.toList ∧ stays name = false ∧ name ≠ ".."

/-- A joined path is the name itself, or ends in a slash and the name. -/
theorem joinPath_cases (directory name : String) :
    joinPath directory name = name ∨
      ∃ way : List Char, (joinPath directory name).toList = way ++ '/' :: name.toList := by
  unfold joinPath
  split
  · exact .inl rfl
  · right
    split
    · rename_i h
      obtain ⟨way, hway⟩ := String.Slice.endsWith_string_iff.1 h
      exact ⟨way, by simpa using congrArg (· ++ name.toList) hway.symm⟩
    · exact ⟨directory.toList, by simp⟩

/-- **The path of a file in a directory ends in the name of the file**: `piecesOf` lists the name
first. -/
theorem piecesOf_joinPath (directory : String) {name : String} (hname : '/' ∉ name.toList) :
    ∃ before, piecesOf (joinPath directory name) = name :: before := by
  unfold piecesOf
  rw [splitOn_slash]
  rcases joinPath_cases directory name with h | ⟨way, hway⟩
  · exact ⟨[], by simp [h, List.splitOn_eq_singleton hname]⟩
  · rw [hway, List.splitOn_append_cons_self, List.splitOn_eq_singleton hname]
    exact ⟨((way.splitOn '/').map String.ofList).reverse, by simp⟩

/-! ### Operations on trees -/

namespace FileTree

theorem lookup_filter_ne {place other : Place} (h : other ≠ place)
    (entries : List (Place × FileEntry)) :
    (entries.filter fun e => e.1 != place).lookup other = entries.lookup other := by
  induction entries with
  | nil => rfl
  | cons e rest ih =>
    obtain ⟨here, entry⟩ := e
    by_cases hplace : here = place
    · have hother : (other == here) = false := by simpa [hplace] using h
      simp [hplace, List.lookup_cons, ih, hplace ▸ hother]
    · simp [hplace, List.lookup_cons, ih]

/-- `get?` after `put` finds the entry at its place, and what was there before at all others. -/
theorem get?_put (t : FileTree) (place other : Place) (entry : FileEntry) :
    (t.put place entry).get? other =
      if other = [] then some .directory else if other = place then some entry
      else t.get? other := by
  by_cases hother : other = []
  · simp [get?, hother]
  · by_cases hplace : other = place
    · simp [get?, put, hplace, hplace ▸ hother]
    · have hne : (other == place) = false := by simpa using hplace
      simp [get?, put, hother, hplace, List.lookup_cons, hne, lookup_filter_ne hplace]

/-- A file that is there after something was put at a place was put there, or was there before. -/
theorem file_of_put {t : FileTree} {place other : Place} {entry : FileEntry} {text : String}
    (h : (t.put place entry).get? other = some (.file text)) :
    other = place ∧ entry = .file text ∨ t.get? other = some (.file text) := by
  rw [get?_put] at h
  split at h
  · cases h
  · split at h
    · exact .inl ⟨‹_›, Option.some.inj h⟩
    · exact .inr h

end FileTree

namespace Filing

variable {β γ : Type} {t : FileTree}

theorem run_get_bind (f : FileTree → Filing β) (t : FileTree) :
    (get >>= f).run.run t = (f t).run.run t := rfl

theorem run_lift_bind (x : Except FileError β) (f : β → Filing γ) (t : FileTree) :
    ((liftM x : Filing β) >>= f).run.run t =
      match x with
      | .error cause => (.error cause, t)
      | .ok b => (f b).run.run t := by
  cases x <;> rfl

/-- An operation that fails is followed by its handler, in the tree that it left. -/
theorem run_tryCatch (x : Filing β) (h : FileError → Filing β) (t : FileTree) :
    (tryCatch x h).run.run t =
      match x.run.run t with
      | (.error cause, t') => (h cause).run.run t'
      | (.ok b, t') => (.ok b, t') := by
  simp only [tryCatch, tryCatchThe, MonadExceptOf.tryCatch, ExceptT.tryCatch, ExceptT.run_mk,
    StateT.run_bind]
  show _ = match StateT.run x t with
    | (.error cause, t') => (h cause).run.run t'
    | (.ok b, t') => (.ok b, t')
  rcases StateT.run x t with ⟨_ | _, _⟩ <;> rfl

/-- Reading gives the text of the file at the place of a path, and changes nothing. -/
theorem run_read (path : String) (t : FileTree) :
    (read path).run.run t =
      (match t.placeOf (piecesOf path) with
      | .error cause => .error cause
      | .ok place =>
        match t.get? place with
        | some (.file text) => .ok text
        | some .directory => .error .isDirectory
        | none => .error .absent, t) := by
  simp only [read, run_get_bind, run_lift_bind]
  cases t.placeOf (piecesOf path) with
  | error cause => rfl
  | ok place =>
    dsimp only
    rcases t.get? place with _ | _ | _ <;> rfl

/-- Writing puts a file at the place of a path unless there is a directory. -/
theorem run_write (path text : String) (t : FileTree) :
    (write path text).run.run t =
      match t.placeOf (piecesOf path) with
      | .error cause => (.error cause, t)
      | .ok place =>
        if t.get? place = some .directory then (.error .isDirectory, t)
        else (.ok (), t.put place (.file text)) := by
  simp only [write, run_get_bind, run_lift_bind]
  cases t.placeOf (piecesOf path) with
  | error cause => rfl
  | ok place =>
    dsimp only
    rcases t.get? place with _ | _ | _ <;> rfl

/-- Making one directory puts it at a place where there is nothing yet. -/
theorem run_makeLast (back : List String) (t : FileTree) :
    (makeLast back).run.run t =
      match t.newPlaceOf back with
      | .error cause => (.error cause, t)
      | .ok place =>
        if (t.get? place).isSome then (.error .occupied, t)
        else (.ok (), t.put place .directory) := by
  simp only [makeLast, run_get_bind, run_lift_bind]
  cases t.newPlaceOf back with
  | error cause => rfl
  | ok place =>
    dsimp only
    cases t.get? place <;> rfl

/-- The second of two operations goes on in the tree that the first one leaves, unless this one
fails. -/
theorem run_bind (x : Filing β) (f : β → Filing γ) (t : FileTree) :
    (x >>= f).run.run t =
      match x.run.run t with
      | (.error cause, t') => (.error cause, t')
      | (.ok b, t') => (f b).run.run t' := by
  simp only [ExceptT.run_bind, StateT.run_bind]
  rcases x.run.run t with ⟨_ | _, _⟩ <;> rfl

/-! ### Making directories -/

/-- An operation that makes no file: every file afterwards was there before. -/
def MakesNoFile (x : Filing β) : Prop :=
  ∀ t place text, (x.run.run t).2.get? place = some (.file text) → t.get? place = some (.file text)

/-- A handler that makes no file makes none after an operation that makes none. -/
theorem MakesNoFile.tryCatch {x : Filing β} {h : FileError → Filing β} (hx : MakesNoFile x)
    (hh : ∀ cause, MakesNoFile (h cause)) : MakesNoFile (tryCatch x h) := by
  intro t place text hfile
  rw [run_tryCatch] at hfile
  have hbefore := hx t place text
  rcases hrun : x.run.run t with ⟨cause | b, t'⟩
  · rw [hrun] at hfile hbefore
    exact hbefore (hh cause t' place text hfile)
  · rw [hrun] at hfile hbefore
    exact hbefore hfile

theorem MakesNoFile.bind {x : Filing β} {f : β → Filing γ} (hx : MakesNoFile x)
    (hf : ∀ b, MakesNoFile (f b)) : MakesNoFile (x >>= f) := by
  intro t place text hfile
  rw [run_bind] at hfile
  have hbefore := hx t place text
  rcases hrun : x.run.run t with ⟨cause | b, t'⟩
  · rw [hrun] at hfile hbefore
    exact hbefore hfile
  · rw [hrun] at hfile hbefore
    exact hbefore (hf b t' place text hfile)

/-- Making one directory makes no file. -/
theorem makesNoFile_makeLast (back : List String) : MakesNoFile (makeLast back) := by
  intro t place text hfile
  rw [run_makeLast] at hfile
  cases hplace : t.newPlaceOf back with
  | error cause =>
    rw [hplace] at hfile
    exact hfile
  | ok new =>
    simp only [hplace] at hfile
    split at hfile
    · exact hfile
    · rcases FileTree.file_of_put hfile with ⟨-, hentry⟩ | hold
      · cases hentry
      · exact hold

/-- Looking for a directory makes no file. -/
theorem makesNoFile_unlessDirectory (back : List String) (cause : FileError) :
    MakesNoFile (unlessDirectory back cause) := by
  intro t place text hfile
  simp only [unlessDirectory, run_get_bind] at hfile
  split at hfile <;> exact hfile

/-- `makeAll` makes directories and no file. The induction is that of the directories above the one
that is made. -/
theorem makesNoFile_makeAll (back : List String) : MakesNoFile (makeAll back) := by
  induction back using makeAll.induct with
  | case1 =>
    rw [makeAll]
    exact fun _ _ _ hfile => hfile
  | case2 piece before ih =>
    rw [makeAll]
    refine (makesNoFile_makeLast _).tryCatch fun cause => ?_
    cases cause with
    | absent =>
      exact ih.bind fun _ =>
        (makesNoFile_makeLast _).tryCatch fun _ => makesNoFile_unlessDirectory _ _
    | _ => exact makesNoFile_unlessDirectory _ _

end Filing

/-! ### Keeping what is written -/

/-- **Files keep what is written.** That a state holds a text under a name means that some file of
this name has the text. This is less than that a file gives the text last written to its path: two
paths may lead to one file, if they end in the same name, and reading and writing may fail. -/
structure FileAccess.Keeps {σ : Type} (files : FileAccess (StateM σ))
    (holds : σ → String → String → Prop) : Prop where
  /-- What is read from a file is what it held. -/
  read_held : ∀ {directory name text : String} {s : σ}, IsFileName name →
    ((files.read (joinPath directory name)).run s).1 = .ok text → holds s name text
  /-- Reading changes no file. -/
  held_of_read : ∀ {path name text : String} {s : σ},
    holds ((files.read path).run s).2 name text → holds s name text
  /-- Writing changes no file but the one that is written, also when it fails. -/
  held_of_write : ∀ {directory name text other kept : String} {s : σ}, IsFileName name →
    holds ((files.write (joinPath directory name) text).run s).2 other kept →
      holds s other kept ∨ other = name ∧ kept = text

namespace FileTree

/-- Whether some file of the `name`, wherever it is, has the text. -/
def Holds (t : FileTree) (name text : String) : Prop :=
  ∃ place, t.get? (name :: place) = some (.file text)

/-- The last step of a path that ends in the name of a file leads to a place of that name. -/
theorem step_name {t : FileTree} {name : String} {above place : Place} (hname : IsFileName name)
    (h : t.step above name = .ok place) : place = name :: above := by
  obtain ⟨-, hstays, hback⟩ := hname
  unfold step at h
  split at h
  · cases h
  · cases h
  · rw [hstays, if_neg Bool.false_ne_true, if_neg hback] at h
    split at h
    · exact (Except.ok.inj h).symm
    · cases h

/-- `placeOf` a path that ends in the name of a file is a place of that name, if the path leads
anywhere. -/
theorem placeOf_name {t : FileTree} {name : String} {before : List String} {place : Place}
    (hname : IsFileName name) (h : t.placeOf (name :: before) = .ok place) :
    ∃ above, place = name :: above := by
  unfold placeOf at h
  split at h
  · rw [List.reverse_cons, List.foldlM_append] at h
    obtain ⟨above, -, hlast⟩ := bind_eq_ok_iff.1 h
    rw [List.foldlM_cons] at hlast
    obtain ⟨last, hstep, hlast⟩ := bind_eq_ok_iff.1 hlast
    obtain rfl : last = place := Except.ok.inj hlast
    exact ⟨above, step_name hname hstep⟩
  · cases h

/-- Writing to a path that ends in the name of a file changes no other file. -/
theorem held_of_write {t : FileTree} {path name text other kept : String} {before : List String}
    (hname : IsFileName name) (hpieces : piecesOf path = name :: before)
    (h : Holds ((Filing.write path text).run.run t).2 other kept) :
    Holds t other kept ∨ other = name ∧ kept = text := by
  obtain ⟨place, hfile⟩ := h
  rw [Filing.run_write, hpieces] at hfile
  cases hplace : t.placeOf (name :: before) with
  | error cause =>
    rw [hplace] at hfile
    exact .inl ⟨place, hfile⟩
  | ok written =>
    obtain ⟨above, rfl⟩ := placeOf_name hname hplace
    simp only [hplace] at hfile
    split at hfile
    · exact .inl ⟨place, hfile⟩
    · rcases file_of_put hfile with ⟨hsame, hentry⟩ | hold
      · exact .inr ⟨(List.cons.inj hsame).1, (FileEntry.file.inj hentry).symm⟩
      · exact .inl ⟨place, hold⟩

/-- **A tree of files keeps what is written**: `FileTree.access` has the property `Keeps` for
`Holds`. -/
theorem keeps_access : FileTree.access.Keeps Holds where
  read_held := by
    intro directory name text t hname hread
    obtain ⟨before, hpieces⟩ := piecesOf_joinPath directory hname.1
    simp only [access, Filing.run_read, hpieces] at hread
    cases hplace : t.placeOf (name :: before) with
    | error cause =>
      rw [hplace] at hread
      cases hread
    | ok place =>
      obtain ⟨above, rfl⟩ := placeOf_name hname hplace
      refine ⟨above, ?_⟩
      simp only [hplace] at hread
      split at hread
      · rename_i kept hfile
        obtain rfl := Except.ok.inj hread
        exact hfile
      · cases hread
      · cases hread
  held_of_read := by
    rintro path name text t ⟨place, hfile⟩
    exact ⟨place, by simpa [access, Filing.run_read] using hfile⟩
  held_of_write := by
    intro directory name text other kept t hname hheld
    obtain ⟨before, hpieces⟩ := piecesOf_joinPath directory hname.1
    have hmake := Filing.makesNoFile_makeAll (parent (piecesOf (joinPath directory name))) t
    simp only [access, Filing.save, Filing.run_bind] at hheld
    rcases hrun : (Filing.makeAll (parent (piecesOf (joinPath directory name)))).run.run t with
      ⟨cause | _, t'⟩
    · simp only [hrun] at hheld hmake
      obtain ⟨place, hfile⟩ := hheld
      exact .inl ⟨place, hmake _ _ hfile⟩
    · simp only [hrun] at hheld hmake
      rcases held_of_write hname hpieces hheld with ⟨place, hfile⟩ | hsame
      · exact .inl ⟨place, hmake _ _ hfile⟩
      · exact .inr hsame

end FileTree

end DurativePlanning.Storage
