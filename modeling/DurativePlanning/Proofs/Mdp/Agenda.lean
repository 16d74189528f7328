import DurativePlanning.Mdp.State
import Mathlib.Data.List.Permutation

/-!
# The Order of the Agenda

An agenda is determined by its entries: the order in which they are listed follows from the ticks
left and the positions of the actions. One tick acts on the entries one by one.

* `Agenda.eq_of_perm`: two agendas with the same entries are equal.
* `Agenda.toList_ofList_filter`: choosing entries and putting them in order commute.
* `Agenda.map_action_due`, `Agenda.pending_ofList`: one tick in terms of the entries before it.
-/

namespace DurativePlanning

/-- `InFlight.notAfter` is antisymmetric: two entries each of which is not after the other are the
same entry. -/
theorem InFlight.notAfter_antisymm {a b : InFlight} (hab : a.notAfter b = true)
    (hba : b.notAfter a = true) : a = b := by
  rw [notAfter_iff] at hab hba
  obtain ⟨s, i⟩ := a
  obtain ⟨t, j⟩ := b
  simp only [InFlight.mk.injEq] at *
  omega

/-- `tick` takes one tick from an entry. -/
@[simp] theorem InFlight.tick_ticksLeft (e : InFlight) : e.tick.ticksLeft = e.ticksLeft - 1 := rfl

namespace Agenda

@[ext] theorem ext {a b : Agenda} (h : a.toList = b.toList) : a = b := by
  cases a; cases b; cases h; rfl

/-- **An agenda is determined by its entries**: `toList` is in order by `notAfter`, which two lists
with the same members can be in one way only. -/
theorem eq_of_perm {a b : Agenda} (h : a.toList.Perm b.toList) : a = b :=
  ext (h.eq_of_pairwise (fun _ _ _ _ => InFlight.notAfter_antisymm) a.ordered b.ordered)

/-- `ofList` puts entries in order and keeps them. -/
theorem perm_ofList (l : List InFlight) : (ofList l).toList.Perm l := List.mergeSort_perm l _

/-- The entries of `ofList l` are those of `l`. -/
@[simp] theorem mem_ofList {l : List InFlight} {e : InFlight} :
    e ∈ (ofList l).toList ↔ e ∈ l :=
  (perm_ofList l).mem_iff

/-- `ofList` leaves entries that are in order already as they are. -/
@[simp] theorem ofList_toList (a : Agenda) : ofList a.toList = a := eq_of_perm (perm_ofList _)

/-- `ofList` of no entries is the empty agenda. -/
@[simp] theorem ofList_nil : ofList [] = empty := ofList_toList empty

@[simp] theorem toList_ofList_singleton (e : InFlight) : (ofList [e]).toList = [e] :=
  List.mergeSort_singleton e

/-- Choosing entries and putting them in order by `ofList` commute. -/
theorem toList_ofList_filter (l : List InFlight) (p : InFlight → Bool) :
    (ofList (l.filter p)).toList = (ofList l).toList.filter p := by
  refine List.Perm.eq_of_pairwise (fun _ _ _ _ => InFlight.notAfter_antisymm)
    (ofList _).ordered ((ofList l).ordered.filter p) ?_
  exact (perm_ofList _).trans ((perm_ofList l).symm.filter p)

/-! ### One tick -/

/-- `due` holds the entries with at most one tick left, which end with the next tick. -/
theorem due_eq (a : Agenda) :
    a.due = (a.toList.filter fun e => decide (e.ticksLeft ≤ 1)).map InFlight.tick := by
  rw [due, List.filter_map]
  congr 2
  funext e
  rw [Bool.eq_iff_iff, Function.comp_apply, beq_iff_eq, decide_eq_true_eq, InFlight.tick_ticksLeft]
  omega

/-- `pending` holds the entries with more than one tick left, one tick later. -/
theorem toList_pending (a : Agenda) :
    a.pending.toList = (a.toList.filter fun e => decide (1 < e.ticksLeft)).map InFlight.tick := by
  change (a.toList.map InFlight.tick).filter _ = _
  rw [List.filter_map]
  congr 2
  funext e
  rw [Bool.eq_iff_iff, Function.comp_apply, bne_iff_ne, decide_eq_true_eq, InFlight.tick_ticksLeft]
  omega

/-- The actions that end with the next tick, in the order of their entries. -/
theorem map_action_due (l : List InFlight) :
    (ofList l).due.map (·.action) =
      (ofList (l.filter fun e => decide (e.ticksLeft ≤ 1))).toList.map (·.action) := by
  rw [due_eq, toList_ofList_filter, List.map_map]
  rfl

/-- The agenda one tick later, from the entries in any order. -/
theorem pending_ofList (l : List InFlight) :
    (ofList l).pending =
      ofList ((l.filter fun e => decide (1 < e.ticksLeft)).map InFlight.tick) := by
  apply eq_of_perm
  rw [toList_pending]
  exact (((perm_ofList l).filter _).map _).trans (perm_ofList _).symm

end Agenda

end DurativePlanning
