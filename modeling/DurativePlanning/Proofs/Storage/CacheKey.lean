import DurativePlanning.Proofs.Storage.Files
import DurativePlanning.Storage.Cache
import Mathlib.Data.List.Basic
import Mathlib.Logic.Function.Basic

/-!
# Names of Stored Bundles

The name of a bundle's file is put together from the domain, the word `comb`, the kind and the
sizes. Domains may be named anything, also like a part of such a name. Two keys still never share a
name: what follows the domain is read back from the end, where only digits, underscores and the
names of kinds can stand before the last `c`.

* `CacheKey.toList_fileName`: the characters of a name.
* `CacheKey.kind_sizes_of_pieces`: kind and sizes are told by the pieces between underscores.
* `CacheKey.injective_fileName`: different keys have different names.
* `CacheKey.fileName_collides_iff`: no two keys share a file.
-/

namespace DurativePlanning.Storage

/-- The pieces, between underscores, of the name of a kind; that of combination is left out. -/
def kindPieces : DomainKind → List String
  | .regular => ["regular"]
  | .regularAsBaseline => ["regular", "as", "baseline"]
  | .combination => []

/-- A list is cut in two at the last place where a member `x` stands. -/
theorem append_cons_inj {β : Type} {x : β} {before before' after after' : List β}
    (h : x ∉ after) (h' : x ∉ after') (heq : before ++ x :: after = before' ++ x :: after') :
    before = before' ∧ after = after' := by
  rcases List.append_eq_append_iff.1 heq with ⟨middle, hbefore, hafter⟩ | ⟨middle, hbefore, hafter⟩
  · cases middle with
    | nil => simpa [hbefore, eq_comm] using hafter
    | cons y rest =>
      have hmem : x ∈ after := by
        rw [(List.cons.inj hafter).2]
        simp
      exact absurd hmem h
  · cases middle with
    | nil => simpa [hbefore, eq_comm] using hafter
    | cons y rest =>
      have hmem : x ∈ after' := by
        rw [(List.cons.inj hafter).2]
        simp
      exact absurd hmem h'

/-- Different numbers are written differently. -/
theorem injective_toString : Function.Injective (toString : Nat → String) := by
  intro a b h
  have hdigits : Nat.toDigits 10 a = Nat.toDigits 10 b := by simpa using congrArg String.toList h
  simpa using congrArg (Nat.ofDigitChars 10 · 0) hdigits

namespace CacheKey

variable {key key' : CacheKey}

/-! ### The characters of a name -/

/-- The pieces of the name behind the domain, none of which has an underscore. -/
def pieces (key : CacheKey) : List String := kindPieces key.kind ++ key.sizes.map toString

/-- The characters of the pieces, each piece after an underscore. -/
def letters (key : CacheKey) : List Char := key.pieces.flatMap fun piece => '_' :: piece.toList

theorem toList_join_parts (key : CacheKey) :
    (String.join (key.parts.map ("_" ++ ·))).toList = key.letters := by
  obtain ⟨domain, kind, sizes⟩ := key
  have hsizes : (String.join ((sizes.map toString).map ("_" ++ ·))).toList =
      (sizes.map toString).flatMap fun piece => '_' :: piece.toList := by
    simp [List.flatMap_map]
  cases kind <;> simpa [parts, letters, pieces, kindPieces, DomainKind.text] using hsizes

/-- The characters of the name of a file. -/
theorem toList_fileName (key : CacheKey) :
    key.fileName.toList =
      key.domain.toList ++ ['_'] ++ 'c' :: ("omb".toList ++ key.letters) ++ ".yaml".toList := by
  simp only [fileName, String.toList_append, toList_join_parts]
  simp

/-- The pieces are made of digits and of the letters that names of kinds have. -/
theorem isDigit_or_mem_of_mem_pieces {piece : String} {c : Char} (h : piece ∈ key.pieces)
    (hc : c ∈ piece.toList) : c.isDigit ∨ c ∈ "regularasbaseline".toList := by
  rcases List.mem_append.1 h with h | h
  · right
    have hwords : kindPieces key.kind ⊆ ["regular", "as", "baseline"] := by
      cases key.kind <;> simp [kindPieces]
    have hletters : ["regular", "as", "baseline"].flatMap String.toList =
      "regularasbaseline".toList := by decide
    rw [← hletters]
    exact List.mem_flatMap.2 ⟨piece, hwords h, hc⟩
  · left
    obtain ⟨n, -, rfl⟩ := List.mem_map.1 h
    rw [Nat.toString_eq_ofList_toDigits, String.toList_ofList] at hc
    exact Nat.isDigit_of_mem_toDigits (by decide) (by decide) hc

/-- No piece has an underscore. -/
theorem underscore_notMem {piece : String} (h : piece ∈ key.pieces) : '_' ∉ piece.toList :=
  fun hc => absurd (isDigit_or_mem_of_mem_pieces h hc) (by decide)

/-- A sign that is no underscore and in no piece is not in the letters. -/
theorem notMem_letters {c : Char} (hunderscore : c ≠ '_')
    (hpiece : ¬(c.isDigit ∨ c ∈ "regularasbaseline".toList)) : c ∉ key.letters := by
  intro h
  obtain ⟨piece, hmem, hc⟩ := List.mem_flatMap.1 h
  have hc : c ∈ piece.toList := by simpa [hunderscore] using hc
  exact hpiece (isDigit_or_mem_of_mem_pieces hmem hc)

/-- The last `c` of a name is the one of `comb`. -/
theorem c_notMem (key : CacheKey) : 'c' ∉ "omb".toList ++ key.letters := by
  intro h
  rcases List.mem_append.1 h with h | h
  · revert h
    decide
  · exact notMem_letters (by decide) (by decide) h

/-- The name of a bundle's file `IsFileName`, if the domain has no slash. -/
theorem isFileName_fileName (h : '/' ∉ key.domain.toList) : IsFileName key.fileName := by
  have hc : 'c' ∈ key.fileName.toList := by simp [toList_fileName]
  have hne : ∀ name : String, 'c' ∉ name.toList → key.fileName ≠ name := by
    rintro name hname rfl
    exact hname hc
  refine ⟨?_, ?_, hne ".." (by decide)⟩
  · have hletters : '/' ∉ key.letters := notMem_letters (by decide) (by decide)
    simp [toList_fileName, h, hletters]
  · have hempty := hne "" (by decide)
    have hdot := hne "." (by decide)
    simp [stays, hempty, hdot]

/-! ### Reading a name back -/

/-- Pieces between underscores are a first piece and the others, each after an underscore. -/
theorem intercalate_pieces (first : List Char) (pieces : List String) :
    ['_'].intercalate (first :: pieces.map String.toList) =
      first ++ pieces.flatMap fun piece => '_' :: piece.toList := by
  induction pieces generalizing first with
  | nil => simp
  | cons piece rest ih => simp [List.intercalate_cons_cons, ih]

/-- `List.splitOn` at the underscores gives the pieces back. -/
theorem splitOn_letters (key : CacheKey) :
    key.letters.splitOn '_' = [] :: key.pieces.map String.toList := by
  have hletters : key.letters = ['_'].intercalate ([] :: key.pieces.map String.toList) :=
    (intercalate_pieces [] key.pieces).symm
  rw [hletters]
  refine List.splitOn_intercalate '_' (fun letters h => ?_) (List.cons_ne_nil _ _)
  rcases List.mem_cons.1 h with rfl | h
  · simp
  · obtain ⟨piece, hpiece, rfl⟩ := List.mem_map.1 h
    exact underscore_notMem hpiece

/-- No size is written like a piece of the name of a kind. -/
theorem map_toString_ne {sizes : List Nat} {word : String} {rest : List String} {c : Char}
    (hc : c ∈ word.toList) (hletter : c.isDigit = false) : sizes.map toString ≠ word :: rest := by
  intro h
  obtain ⟨n, _, -, rfl, -⟩ := List.map_eq_cons_iff.1 h
  rw [Nat.toString_eq_ofList_toDigits, String.toList_ofList] at hc
  have hdigit := Nat.isDigit_of_mem_toDigits (by decide) (by decide) hc
  exact Bool.false_ne_true (hletter.symm.trans hdigit)

/-- **The pieces of a name tell kind and sizes**: words of kinds have letters and sizes have digits
only, by `map_toString_ne`. -/
theorem kind_sizes_of_pieces (h : key.pieces = key'.pieces) :
    key.kind = key'.kind ∧ key.sizes = key'.sizes := by
  have hregular : ∀ {sizes : List Nat} {rest}, sizes.map toString ≠ "regular" :: rest :=
    fun h => map_toString_ne (by decide : 'r' ∈ _) (by decide) h
  have hbaseline : ∀ {sizes : List Nat} {rest}, sizes.map toString ≠ "as" :: rest :=
    fun h => map_toString_ne (by decide : 's' ∈ _) (by decide) h
  obtain ⟨_, kind, sizes⟩ := key
  obtain ⟨_, kind', sizes'⟩ := key'
  have hinj := injective_toString.list_map
  cases kind with
  | regular =>
    cases kind' with
    | regular => exact ⟨rfl, hinj (List.cons.inj h).2⟩
    | regularAsBaseline => exact absurd (List.cons.inj h).2 hbaseline
    | combination => exact absurd h.symm hregular
  | regularAsBaseline =>
    cases kind' with
    | regular => exact absurd (List.cons.inj h).2.symm hbaseline
    | regularAsBaseline => exact ⟨rfl, hinj (List.append_cancel_left h)⟩
    | combination => exact absurd h.symm hregular
  | combination =>
    cases kind' with
    | regular => exact absurd h hregular
    | regularAsBaseline => exact absurd h hregular
    | combination => exact ⟨rfl, hinj h⟩

/-- **Different keys have different files**: `fileName` is injective. -/
theorem injective_fileName : Function.Injective fileName := by
  intro key key' h
  have hchars := congrArg String.toList h
  rw [toList_fileName, toList_fileName] at hchars
  obtain ⟨hdomain, hletters⟩ :=
    append_cons_inj key.c_notMem key'.c_notMem (List.append_cancel_right hchars)
  have hsplit := congrArg (List.splitOn '_') (List.append_cancel_left hletters)
  rw [splitOn_letters, splitOn_letters] at hsplit
  have hpieces : key.pieces = key'.pieces :=
    (Function.Injective.list_map fun _ _ => String.toList_inj.1) (List.cons.inj hsplit).2
  obtain ⟨hkind, hsizes⟩ := kind_sizes_of_pieces hpieces
  obtain ⟨domain, kind, sizes⟩ := key
  obtain ⟨domain', kind', sizes'⟩ := key'
  cases hkind
  cases hsizes
  have hdomain := String.toList_inj.1 (List.append_cancel_right hdomain)
  exact congrArg (CacheKey.mk · _ _) hdomain

/-- The `path` of a file in a directory tells its name, through `piecesOf`. -/
theorem fileName_eq_of_path_eq (h : '/' ∉ key.domain.toList) (h' : '/' ∉ key'.domain.toList)
    {directory directory' : String} (hpath : key.path directory = key'.path directory') :
    key.fileName = key'.fileName := by
  obtain ⟨way, hway⟩ := piecesOf_joinPath directory (isFileName_fileName h).1
  obtain ⟨way', hway'⟩ := piecesOf_joinPath directory' (isFileName_fileName h').1
  have hpieces : key.fileName :: way = key'.fileName :: way' := by
    rw [← hway, ← hway']
    exact congrArg piecesOf hpath
  exact (List.cons.inj hpieces).1

/-- **No two keys share a file**, whatever the domains are named. Equal names come from equal
domains, kinds and sizes; and if no domain has a slash in its name, equal paths do as well, also
through directories that are spelled in different ways. -/
theorem fileName_collides_iff (a b : CacheKey) :
    (a.fileName = b.fileName ↔ a.domain = b.domain ∧ a.kind = b.kind ∧ a.sizes = b.sizes) ∧
    ('/' ∉ a.domain.toList → '/' ∉ b.domain.toList → ∀ directory directory',
      a.path directory = b.path directory' → a = b) := by
  constructor
  · constructor
    · intro h
      obtain rfl := injective_fileName h
      exact ⟨rfl, rfl, rfl⟩
    · rintro ⟨hdomain, hkind, hsizes⟩
      rw [fileName, fileName, parts, parts, hdomain, hkind, hsizes]
  · intro ha hb directory directory' hpath
    exact injective_fileName (fileName_eq_of_path_eq ha hb hpath)

/-- A domain may be named like the beginning of a name: the last `comb` counts. -/
example : (⟨"grid_comb_2", .regular, [7]⟩ : CacheKey).fileName =
    "grid_comb_2_comb_regular_7.yaml" := by
  decide

end CacheKey

end DurativePlanning.Storage
