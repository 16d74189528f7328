import DurativePlanning.Atom.Table
import Mathlib.Data.List.Induction
import Mathlib.Data.List.Nodup

/-!
# Numberings as Lists

A numbering is used by looking values up in an index, and it is reasoned about by the list of its
values: a value is numbered by its first position in the list, and a value without a number is put
at the end. Numbers are never taken back, so the list only grows.

* `Numbering.nodup_toList`: no value is listed twice.
* `Numbering.fst_intern`, `Numbering.toList_intern`: numbering a value in terms of the list.
* `Numbering.prefix_intern`, `Numbering.get?_mono`: a number that was given out stays.
* `Numbering.toList_ofList_eq_firsts`: a list is numbered by its first occurrences.
* `Numbering.internAll`, `Numbering.fst_internAll`: many values numbered one after the other.
* `AtomTable.lookup_internAtom`, `AtomTable.lookup_mono`: the same for atoms.
-/

namespace DurativePlanning

namespace Numbering

variable {β : Type} [DecidableEq β] [Hashable β] {t t' : Numbering β} {l : List β} {x : β} {n : ℕ}

/-- `get?` is the entry of `toList` at the number. -/
theorem get?_eq_getElem? (t : Numbering β) (n : ℕ) : t.get? n = t.toList[n]? :=
  Array.getElem?_toList.symm

/-- `number?` finds nothing exactly for the values that `toList` does not list. -/
theorem number?_eq_none_iff : t.number? x = none ↔ x ∉ t.toList := by
  rw [Option.eq_none_iff_forall_ne_some, List.mem_iff_getElem?, not_exists]
  refine forall_congr' fun n => not_congr ?_
  rw [number?_eq_some_iff, get?_eq_getElem?]

/-- A value with a number is listed. -/
theorem mem_of_number? (h : t.number? x = some n) : x ∈ t.toList := by
  rw [number?_eq_some_iff, get?_eq_getElem?] at h
  exact List.mem_of_getElem? h

/-- **No value is listed twice**: `toList` gives each value one number. -/
theorem nodup_toList (t : Numbering β) : t.toList.Nodup := by
  refine List.nodup_iff_getElem?_ne_getElem?.mpr fun i j hij hj heq => ?_
  have hx : t.get? j = some t.toList[j] := by rw [get?_eq_getElem?, List.getElem?_eq_getElem hj]
  have hi : t.get? i = some t.toList[j] := by
    rw [get?_eq_getElem?, heq, List.getElem?_eq_getElem hj]
  rw [← number?_eq_some_iff] at hx hi
  have : i = j := Option.some.inj (hi.symm.trans hx)
  omega

/-- `number?` of a listed value is its position. -/
theorem number?_of_mem (h : x ∈ t.toList) : t.number? x = some (t.toList.idxOf x) := by
  rw [number?_eq_some_iff, get?_eq_getElem?]
  exact List.getElem?_idxOf h

/-- **The number that `intern` gives a value**: its position in the list, the next one if it is
new. -/
theorem fst_intern (t : Numbering β) (x : β) : (t.intern x).1 = t.toList.idxOf x := by
  rw [intern]
  split
  · next n h =>
    rw [number?_of_mem (mem_of_number? h)] at h
    exact (Option.some.inj h).symm
  · next h =>
    rw [List.idxOf_eq_length (number?_eq_none_iff.mp h)]
    exact Array.length_toList.symm

/-- **The list after `intern`**: a value that is new comes last, and nothing changes otherwise. -/
theorem toList_intern (t : Numbering β) (x : β) :
    (t.intern x).2.toList = if x ∈ t.toList then t.toList else t.toList ++ [x] := by
  rw [intern]
  split
  · next n h =>
    rw [if_pos (mem_of_number? h)]
  · next h =>
    rw [if_neg (number?_eq_none_iff.mp h)]
    exact Array.toList_push

/-- After `intern` the listed values are those before it and the one that was numbered. -/
theorem mem_toList_intern {y : β} : x ∈ (t.intern y).2.toList ↔ x ∈ t.toList ∨ x = y := by
  rw [toList_intern]
  split
  · next hy => exact (or_iff_left_of_imp fun hx => hx ▸ hy).symm
  · rw [List.mem_append, List.mem_singleton]

/-- `intern` finds a value that is listed, and leaves the numbering as it is. -/
theorem intern_of_mem (h : x ∈ t.toList) : t.intern x = (t.toList.idxOf x, t) := by
  refine Prod.ext (fst_intern t x) (ext ?_)
  have hlist := toList_intern t x
  rw [if_pos h] at hlist
  exact Array.toList_inj.mp hlist

/-- `ofList` with one more value numbers it last. -/
theorem ofList_concat (l : List β) (x : β) : ofList (l ++ [x]) = ((ofList l).intern x).2 := by
  rw [ofList, List.foldl_append, List.foldl_cons, List.foldl_nil]
  rfl

/-- `ofList` numbers a list without repetition as it stands. -/
theorem toList_ofList (h : l.Nodup) : (ofList l).toList = l := by
  induction l using List.reverseRecOn with
  | nil => rfl
  | append_singleton l x ih =>
      rw [List.nodup_append] at h
      rw [ofList_concat, toList_intern, ih h.1, if_neg fun hx =>
        h.2.2 x hx x (List.mem_singleton_self x) rfl]

/-- The values of a list are the ones that are numbered. -/
theorem mem_toList_ofList : x ∈ (ofList l).toList ↔ x ∈ l := by
  induction l using List.reverseRecOn with
  | nil => exact Iff.rfl
  | append_singleton l y ih =>
      rw [ofList_concat, mem_toList_intern, ih, List.mem_append, List.mem_singleton]

/-- The **first occurrences** of the members of a list, in order. -/
def firsts (l : List β) : List β := (l.zipIdx.filter fun x => x.1 ∉ l.take x.2).map Prod.fst

omit [Hashable β] in
/-- One more member is a first occurrence when it is new. -/
theorem firsts_concat (l : List β) (x : β) :
    firsts (l ++ [x]) = if x ∈ l then firsts l else firsts l ++ [x] := by
  have hbefore : (l.zipIdx.filter fun y => y.1 ∉ (l ++ [x]).take y.2) =
      l.zipIdx.filter fun y => y.1 ∉ l.take y.2 := by
    refine List.filter_congr fun y hy => ?_
    rw [List.take_append_of_le_length (Nat.le_of_lt (List.snd_lt_of_mem_zipIdx hy))]
  rw [firsts, List.zipIdx_append, List.filter_append, hbefore, List.map_append]
  by_cases hx : x ∈ l
  · simp [hx, firsts]
  · simp [hx, firsts]

/-- **A list is numbered by its first occurrences**: `toList` of `ofList l` is `firsts l`, by
induction from the right. -/
theorem toList_ofList_eq_firsts (l : List β) : (ofList l).toList = firsts l := by
  induction l using List.reverseRecOn with
  | nil => rfl
  | append_singleton l x ih =>
      rw [ofList_concat, toList_intern, firsts_concat, ih]
      exact if_congr (ih ▸ mem_toList_ofList) rfl rfl

/-- `ofList` numbers a list as it stands exactly when it repeats nothing. -/
theorem toList_ofList_eq_self_iff : (ofList l).toList = l ↔ l.Nodup :=
  ⟨fun h => h ▸ nodup_toList _, toList_ofList⟩

/-- **A numbering is made again from its list**: `ofList` undoes `toList`. -/
theorem ofList_toList (t : Numbering β) : ofList t.toList = t :=
  ext (Array.toList_inj.mp (toList_ofList t.nodup_toList))

/-- `intern` only extends the list. -/
theorem prefix_intern (t : Numbering β) (x : β) : t.toList <+: (t.intern x).2.toList := by
  rw [toList_intern]
  split
  · exact List.prefix_rfl
  · exact List.prefix_append _ _

/-- `get?` gives back the value that `intern` has just numbered. -/
theorem get?_intern (t : Numbering β) (x : β) : (t.intern x).2.get? (t.intern x).1 = some x := by
  rw [get?_eq_getElem?, toList_intern, fst_intern]
  split
  · next h => exact List.getElem?_idxOf h
  · next h => rw [List.idxOf_eq_length h, List.getElem?_concat_length]

/-- `get?` stays as the list grows. -/
theorem get?_mono (hgrown : t.toList <+: t'.toList) (h : t.get? n = some x) :
    t'.get? n = some x := by
  rw [get?_eq_getElem?] at h ⊢
  obtain ⟨rest, hrest⟩ := hgrown
  rw [← hrest, List.getElem?_append_left (List.getElem?_eq_some_iff.mp h).1]
  exact h

/-- The numbers that `number?` gives are those below `size`. -/
theorem exists_number?_iff : (∃ x, t.number? x = some n) ↔ n < t.size := by
  simp [number?_eq_some_iff, get?, size, Array.getElem?_eq_some_iff]

/-- `intern` of a value that has a number gives this number and changes nothing. -/
theorem intern_of_number? (h : t.number? x = some n) : t.intern x = (n, t) := by
  have hx := mem_of_number? h
  rw [number?_of_mem hx] at h
  rw [intern_of_mem hx, Option.some.inj h]

/-- `intern` of a value without a number gives it `size`, and puts it at the end. -/
theorem intern_of_number?_eq_none (h : t.number? x = none) :
    (t.intern x).1 = t.size ∧ (t.intern x).2.toList = t.toList ++ [x] := by
  have hx : x ∉ t.toList := number?_eq_none_iff.mp h
  rw [fst_intern, toList_intern, List.idxOf_eq_length hx, if_neg hx]
  exact ⟨Array.length_toList, rfl⟩

/-- `get?` in a list without repetition is the entry at the number. -/
theorem get?_ofList (h : l.Nodup) (n : ℕ) : (ofList l).get? n = l[n]? := by
  rw [get?_eq_getElem?, toList_ofList h]

/-- One more value that is among those of a list without repetition. -/
theorem intern_ofList_of_mem (h : l.Nodup) (hx : x ∈ l) :
    (ofList l).intern x = (l.idxOf x, ofList l) := by
  rw [intern_of_mem (mem_toList_ofList.mpr hx), toList_ofList h]

/-- One more value that is not among those of a list without repetition. -/
theorem intern_ofList_of_notMem (h : l.Nodup) (hx : x ∉ l) :
    (ofList l).intern x = (l.length, ofList (l ++ [x])) := by
  rw [ofList_concat, ← List.idxOf_eq_length hx, ← toList_ofList h, ← fst_intern, toList_ofList h]

/-! ### One value after the other -/

/-- Values numbered one after the other: the numbers that they are given, and the numbering
afterwards. -/
def internAll : Numbering β → List β → List ℕ × Numbering β
  | t, [] => ([], t)
  | t, x :: rest =>
    ((t.intern x).1 :: (internAll (t.intern x).2 rest).1, (internAll (t.intern x).2 rest).2)

/-- `internAll` only extends the list. -/
theorem prefix_internAll (t : Numbering β) (l : List β) :
    t.toList <+: (t.internAll l).2.toList := by
  induction l generalizing t with
  | nil => exact List.prefix_rfl
  | cons x rest ih => exact (t.prefix_intern x).trans (ih _)

/-- A value has no other number than its position in the list. -/
theorem eq_idxOf_of_get? (h : t.get? n = some x) : n = t.toList.idxOf x := by
  have hn := number?_eq_some_iff.mpr h
  rw [number?_of_mem (mem_of_number? hn)] at hn
  exact (Option.some.inj hn).symm

/-- **The numbers that values are given one after the other** by `internAll` are their positions in
the list that is there in the end. -/
theorem fst_internAll (t : Numbering β) (l : List β) :
    (t.internAll l).1 = l.map fun x => (t.internAll l).2.toList.idxOf x := by
  induction l generalizing t with
  | nil => rfl
  | cons x rest ih =>
      have hx : (t.internAll (x :: rest)).2.get? (t.intern x).1 = some x :=
        get?_mono (prefix_internAll _ rest) (t.get?_intern x)
      rw [internAll, List.map_cons, ih]
      exact congrArg (· :: _) (eq_idxOf_of_get? hx)

/-- What is listed in the end is what was listed before and what was numbered. -/
theorem mem_toList_internAll : x ∈ (t.internAll l).2.toList ↔ x ∈ t.toList ∨ x ∈ l := by
  induction l generalizing t with
  | nil => exact (or_iff_left List.not_mem_nil).symm
  | cons y rest ih => rw [internAll, ih, mem_toList_intern, List.mem_cons, or_assoc]

/-- A value has the number that it was given. -/
theorem get?_internAll {i : ℕ} (hx : l[i]? = some x) (hn : (t.internAll l).1[i]? = some n) :
    (t.internAll l).2.get? n = some x := by
  rw [fst_internAll, List.getElem?_map, hx] at hn
  obtain rfl := Option.some.inj hn
  rw [get?_eq_getElem?]
  exact List.getElem?_idxOf (mem_toList_internAll.mpr (.inr (List.mem_of_getElem? hx)))

/-- **Two values are given the same number by `internAll` exactly when they are equal.** -/
theorem getElem?_fst_internAll_inj {i j : ℕ} {y : β} (hx : l[i]? = some x) (hy : l[j]? = some y) :
    (t.internAll l).1[i]? = (t.internAll l).1[j]? ↔ x = y := by
  have hlength : (t.internAll l).1.length = l.length := by rw [fst_internAll, List.length_map]
  have hi := List.getElem?_eq_getElem (hlength ▸ (List.getElem?_eq_some_iff.mp hx).1)
  have hj := List.getElem?_eq_getElem (hlength ▸ (List.getElem?_eq_some_iff.mp hy).1)
  constructor
  · intro heq
    exact Option.some.inj ((get?_internAll hx hi).symm.trans (get?_internAll hy (heq ▸ hi)))
  · rintro rfl
    rw [fst_internAll, List.getElem?_map, List.getElem?_map, hx, hy]

/-- The numbers that `internAll` gives out from an empty numbering on are those below the size. -/
theorem mem_fst_internAll_empty :
    n ∈ ((empty : Numbering β).internAll l).1 ↔ n < (empty.internAll l).2.size := by
  rw [← exists_number?_iff, fst_internAll, List.mem_map]
  refine exists_congr fun x => ⟨?_, fun hx => ⟨?_, ?_⟩⟩
  · rintro ⟨hx, rfl⟩
    exact number?_of_mem (mem_toList_internAll.mpr (.inr hx))
  · exact (mem_toList_internAll.mp (mem_of_number? hx)).resolve_left List.not_mem_nil
  · exact (eq_idxOf_of_get? (number?_eq_some_iff.mp hx)).symm

end Numbering

namespace AtomTable

/-- A ground fluent has the atom that it has just been given. -/
theorem lookup_internAtom (t : AtomTable) (f : GroundFluent) :
    (t.internAtom f).2.lookup f = some (t.internAtom f).1 :=
  lookup_eq_some_iff.mpr (t.get?_intern f)

/-- `lookup` stays as the table grows. -/
theorem lookup_mono {t t' : AtomTable} (hgrown : t.toList <+: t'.toList) {f : GroundFluent}
    {r : AtomId} (h : t.lookup f = some r) : t'.lookup f = some r :=
  lookup_eq_some_iff.mpr (Numbering.get?_mono hgrown (lookup_eq_some_iff.mp h))

end AtomTable

end DurativePlanning
