import Mathlib.Data.List.Perm.Basic
import GrammarReach.Worklist

namespace GrammarReach.Worklist

/-- Items leave in the order of the view. -/
theorem toList_of_pop? {work rest : Worklist} {item : WorkItem}
    (popped : work.pop? = some (item, rest)) : work.toList = item :: rest.toList := by
  unfold pop? at popped
  cases taken : work.main.pop? with
  | some pair =>
    simp only [taken, Option.some.injEq, Prod.mk.injEq] at popped
    obtain ⟨rfl, rfl⟩ := popped
    rw [toList, Queue.toList_of_pop? taken]
    rfl
  | none =>
    simp only [taken] at popped
    obtain ⟨pair, found, same⟩ := Option.map_eq_some_iff.mp popped
    obtain ⟨rfl, rfl⟩ := Prod.mk.inj same
    rw [toList, toList, Queue.toList_of_pop?_eq_none taken, Queue.toList_of_pop? found]
    rfl

theorem toList_of_pop?_eq_none {work : Worklist} (dry : work.pop? = none) : work.toList = [] := by
  unfold pop? at dry
  cases taken : work.main.pop? with
  | some pair => simp [taken] at dry
  | none =>
    simp only [taken, Option.map_eq_none_iff] at dry
    rw [toList, Queue.toList_of_pop?_eq_none taken, Queue.toList_of_pop?_eq_none dry]
    rfl

theorem isEmpty_iff (work : Worklist) : work.isEmpty ↔ work.toList = [] := by
  obtain ⟨⟨front, back⟩, ⟨front', back'⟩, pushed⟩ := work
  simp [toList, Queue.toList, isEmpty, Queue.isEmpty, and_assoc]

theorem pop?_of_isEmpty {work : Worklist} (empty : work.isEmpty) : work.pop? = none := by
  rw [isEmpty_iff] at empty
  cases popped : work.pop? with
  | none => rfl
  | some pair => simp [toList_of_pop? popped] at empty

/-- Taking an item from a worklist with nothing deferred leaves nothing deferred. -/
theorem deferred_of_pop? {work rest : Worklist} {item : WorkItem}
    (popped : work.pop? = some (item, rest)) (none : work.deferred.toList = []) :
    rest.deferred.toList = [] := by
  unfold pop? at popped
  cases taken : work.main.pop? with
  | some pair =>
    simp only [taken, Option.some.injEq, Prod.mk.injEq] at popped
    obtain ⟨-, rfl⟩ := popped
    exact none
  | none =>
    rw [taken] at popped
    obtain ⟨pair, found, -⟩ := Option.map_eq_some_iff.mp popped
    have deferred := Queue.toList_of_pop? found
    rw [none] at deferred
    cases deferred

theorem toList_push_perm (work : Worklist) (item : WorkItem) :
    (work.push item).toList.Perm (work.toList ++ [item]) := by
  simp only [push, toList, Queue.toList_push, List.append_assoc]
  exact List.Perm.append_left _ List.perm_append_comm

theorem toList_defer (work : Worklist) (item : WorkItem) :
    (work.defer item).toList = work.toList ++ [item] := by
  simp [defer, toList]

theorem toList_push_of_none_deferred {work : Worklist} (none : work.deferred.toList = [])
    (item : WorkItem) : (work.push item).toList = work.toList ++ [item] := by
  simp [push, toList, none]

end GrammarReach.Worklist
