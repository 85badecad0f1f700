import Mathlib.Data.Finset.Max
import Mathlib.Data.Finset.Sort
import GrammarReach.Proofs.Calls
import GrammarReach.Proofs.NodeSet

namespace GrammarReach.NodeSet

/-- A set is laid out well and has the members of a finite set. -/
structure Represents (set : NodeSet) (members : Finset Node) : Prop where
  valid : set.Valid
  contains_iff : ∀ node, set.contains node ↔ node ∈ members

theorem represents_empty : Represents empty ∅ := ⟨valid_empty, by simp⟩

theorem represents_singleton (node : Node) : Represents (singleton node) {node} :=
  ⟨valid_singleton node, fun other => by rw [contains_singleton, Finset.mem_singleton]⟩

theorem represents_ofList (nodes : List Node) : Represents (ofList nodes) nodes.toFinset :=
  ⟨valid_ofList nodes, fun node => by rw [contains_ofList, List.mem_toFinset]⟩

/-- A set that is laid out well stands for the finite set of the nodes that it lists. -/
theorem Valid.represents {set : NodeSet} (valid : set.Valid) : Represents set set.toList.toFinset :=
  ⟨valid, fun node => by rw [List.mem_toFinset, mem_toList]⟩

namespace Represents

variable {set other : NodeSet} {members others : Finset Node}

theorem insert (represents : Represents set members) (node : Node) :
    Represents (set.insert node).1 (Insert.insert node members) := by
  refine ⟨valid_insert represents.valid node, fun other => ?_⟩
  rw [contains_insert represents.valid, Finset.mem_insert, represents.contains_iff]

theorem insert_flag (represents : Represents set members) (node : Node) :
    (set.insert node).2 = decide (Insert.insert node members ≠ members) := by
  rw [NodeSet.insert_flag, Bool.eq_iff_iff]
  simp [← represents.contains_iff]

theorem insertAll (represents : Represents set members) (nodes : List Node) :
    Represents (set.insertAll nodes) (members ∪ nodes.toFinset) := by
  obtain ⟨grown, contains⟩ := insertAll_spec represents.valid nodes
  refine ⟨grown, fun node => ?_⟩
  rw [contains, Finset.mem_union, List.mem_toFinset, represents.contains_iff]

theorem remove (represents : Represents set members) (node : Node) :
    Represents (set.remove node).1 (members.erase node) := by
  refine ⟨valid_remove represents.valid node, fun other => ?_⟩
  rw [contains_remove represents.valid, Finset.mem_erase, represents.contains_iff, and_comm]

theorem remove_flag (represents : Represents set members) (node : Node) :
    (set.remove node).2 = decide (members.erase node ≠ members) := by
  rw [NodeSet.remove_flag, Bool.eq_iff_iff, represents.contains_iff]
  simp

theorem unionNew (represents : Represents set members) (represents' : Represents other others) :
    Represents (set.unionNew other).1 (members ∪ others) ∧
      Represents (set.unionNew other).2 (others \ members) := by
  obtain ⟨united, fresh⟩ := valid_unionNew represents.valid represents'.valid
  refine ⟨⟨united, fun node => ?_⟩, ⟨fresh, fun node => ?_⟩⟩
  · rw [contains_unionNew represents.valid represents'.valid, Finset.mem_union, represents.contains_iff,
      represents'.contains_iff]
  · rw [contains_unionNew_fresh represents.valid represents'.valid, Finset.mem_sdiff,
      represents.contains_iff, represents'.contains_iff]

theorem difference (represents : Represents set members) (represents' : Represents other others) :
    Represents (set.difference other) (members \ others) := by
  refine ⟨valid_difference represents.valid other, fun node => ?_⟩
  rw [contains_difference, Finset.mem_sdiff, represents.contains_iff,
    represents'.contains_iff]

theorem toList_eq (represents : Represents set members) : set.toList = members.sort := by
  have listed : set.toList.toFinset = members := by
    ext node
    rw [List.mem_toFinset, mem_toList, represents.contains_iff]
  rw [← listed]
  exact ((List.toFinset_sort (· ≤ ·) (toList_nodup represents.valid)).mpr
    ((toList_ascends represents.valid).imp Nat.le_of_lt)).symm

theorem size_eq (represents : Represents set members) : set.size = members.card := by
  rw [← length_toList, represents.toList_eq, Finset.length_sort]

theorem isEmpty_eq (represents : Represents set members) : set.isEmpty = decide (members = ∅) := by
  rw [Bool.eq_iff_iff, isEmpty_iff]
  simp [represents.contains_iff, Finset.eq_empty_iff_forall_notMem]

theorem first?_eq (represents : Represents set members) :
    set.first? = if inhabited : members.Nonempty then some (members.min' inhabited) else none := by
  cases first : set.first? with
  | none =>
    have bare : members = ∅ := Finset.eq_empty_of_forall_notMem fun node =>
      mt (represents.contains_iff node).mpr ((first?_eq_none_iff set).mp first node)
    rw [dif_neg (Finset.not_nonempty_iff_eq_empty.mpr bare)]
  | some node =>
    obtain ⟨held, least⟩ := first?_least represents.valid first
    have member := (represents.contains_iff node).mp held
    rw [dif_pos ⟨node, member⟩, Option.some.injEq]
    refine Nat.le_antisymm (Finset.le_min' _ _ _ fun other inside => ?_) (Finset.min'_le _ _ member)
    exact least other ((represents.contains_iff other).mpr inside)

theorem same_eq (represents : Represents set members) (represents' : Represents other others) :
    set.same other = decide (members = others) := by
  rw [Bool.eq_iff_iff, same_iff represents.valid represents'.valid]
  simp [represents.contains_iff, represents'.contains_iff, Finset.ext_iff]

end Represents

open Function (update)

/-- A call on sets that are kept at numbered places. -/
inductive Call
  | singleton (place : Nat) (node : Node)
  | ofList (place : Nat) (nodes : List Node)
  | clear (place : Nat)
  | insert (place : Nat) (node : Node)
  | insertAll (place : Nat) (nodes : List Node)
  | remove (place : Nat) (node : Node)
  | unionNew (place other fresh : Nat)
  | union (place other : Nat)
  | difference (place other rest : Nat)
  | contains (place : Nat) (node : Node)
  | size (place : Nat)
  | isEmpty (place : Nat)
  | first (place : Nat)
  | toList (place : Nat)
  | same (place other : Nat)

inductive Answer
  | done
  | flag (value : Bool)
  | number (value : Nat)
  | least (node : Option Node)
  | listed (nodes : List Node)

/-- Carries out a call. A set that a call makes is put at a place of its own. -/
def carryOut (call : Call) (sets : Nat → NodeSet) : (Nat → NodeSet) × Answer :=
  match call with
  | .singleton place node => (update sets place (.singleton node), .done)
  | .ofList place nodes => (update sets place (.ofList nodes), .done)
  | .clear place => (update sets place (sets place).clear, .done)
  | .insert place node =>
    let (grown, fresh) := (sets place).insert node
    (update sets place grown, .flag fresh)
  | .insertAll place nodes => (update sets place ((sets place).insertAll nodes), .done)
  | .remove place node =>
    let (shrunk, present) := (sets place).remove node
    (update sets place shrunk, .flag present)
  | .unionNew place other fresh =>
    let (united, new) := (sets place).unionNew (sets other)
    (update (update sets place united) fresh new, .listed new.toList)
  | .union place other => (update sets place ((sets place).union (sets other)), .done)
  | .difference place other rest =>
    (update sets rest ((sets place).difference (sets other)), .done)
  | .contains place node => (sets, .flag ((sets place).contains node))
  | .size place => (sets, .number (sets place).size)
  | .isEmpty place => (sets, .flag (sets place).isEmpty)
  | .first place => (sets, .least (sets place).first?)
  | .toList place => (sets, .listed (sets place).toList)
  | .same place other => (sets, .flag ((sets place).same (sets other)))

/-- What a call means for finite sets. -/
def expect (call : Call) (sets : Nat → Finset Node) : (Nat → Finset Node) × Answer :=
  match call with
  | .singleton place node => (update sets place {node}, .done)
  | .ofList place nodes => (update sets place nodes.toFinset, .done)
  | .clear place => (update sets place ∅, .done)
  | .insert place node =>
    let grown := Insert.insert node (sets place)
    (update sets place grown, .flag (grown ≠ sets place))
  | .insertAll place nodes => (update sets place (sets place ∪ nodes.toFinset), .done)
  | .remove place node =>
    let shrunk := (sets place).erase node
    (update sets place shrunk, .flag (shrunk ≠ sets place))
  | .unionNew place other fresh =>
    let new := sets other \ sets place
    (update (update sets place (sets place ∪ sets other)) fresh new, .listed new.sort)
  | .union place other => (update sets place (sets place ∪ sets other), .done)
  | .difference place other rest => (update sets rest (sets place \ sets other), .done)
  | .contains place node => (sets, .flag (node ∈ sets place))
  | .size place => (sets, .number (sets place).card)
  | .isEmpty place => (sets, .flag (sets place = ∅))
  | .first place =>
    (sets, .least (if inhabited : (sets place).Nonempty then some ((sets place).min' inhabited) else none))
  | .toList place => (sets, .listed (sets place).sort)
  | .same place other => (sets, .flag (sets place = sets other))

/-- Every place holds a set that represents the finite set there. -/
def RepresentsAll (sets : Nat → NodeSet) (members : Nat → Finset Node) : Prop :=
  ∀ place, Represents (sets place) (members place)

/-- One call is answered as finite sets answer it, and leaves the sets that they leave. -/
theorem alike_carryOut (call : Call) (sets : Nat → NodeSet) (members : Nat → Finset Node)
    (all : RepresentsAll sets members) : Alike RepresentsAll (carryOut call sets) (expect call members) := by
  cases call with
  | singleton place node => exact ⟨related_update all place (represents_singleton node), rfl⟩
  | ofList place nodes => exact ⟨related_update all place (represents_ofList nodes), rfl⟩
  | clear place => exact ⟨related_update all place represents_empty, rfl⟩
  | insert place node =>
    exact ⟨related_update all place ((all place).insert node),
      congrArg Answer.flag ((all place).insert_flag node)⟩
  | insertAll place nodes => exact ⟨related_update all place ((all place).insertAll nodes), rfl⟩
  | remove place node =>
    exact ⟨related_update all place ((all place).remove node),
      congrArg Answer.flag ((all place).remove_flag node)⟩
  | unionNew place other fresh =>
    obtain ⟨united, new⟩ := (all place).unionNew (all other)
    exact ⟨related_update (related_update all place united) fresh new,
      congrArg Answer.listed new.toList_eq⟩
  | union place other => exact ⟨related_update all place ((all place).unionNew (all other)).1, rfl⟩
  | difference place other rest =>
    exact ⟨related_update all rest ((all place).difference (all other)), rfl⟩
  | contains place node =>
    refine ⟨all, congrArg Answer.flag ?_⟩
    rw [Bool.eq_iff_iff, (all place).contains_iff, decide_eq_true_iff]
  | size place => exact ⟨all, congrArg Answer.number (all place).size_eq⟩
  | isEmpty place => exact ⟨all, congrArg Answer.flag (all place).isEmpty_eq⟩
  | first place => exact ⟨all, congrArg Answer.least (all place).first?_eq⟩
  | toList place => exact ⟨all, congrArg Answer.listed (all place).toList_eq⟩
  | same place other => exact ⟨all, congrArg Answer.flag ((all place).same_eq (all other))⟩

/-- Any sequence of calls on sets that are empty at first is answered as finite sets answer it. The
sets stay laid out well, represent the finite sets, and list their members in strictly ascending order. -/
theorem calls_refine_finsets (calls : List Call) :
    let (sets, answers) := runCalls carryOut calls fun _ => empty
    let (members, expected) := runCalls expect calls fun _ => ∅
    answers = expected ∧
      ∀ place, Represents (sets place) (members place) ∧ (sets place).toList.Pairwise (· < ·) := by
  have outcome := alike_runCalls alike_carryOut calls fun _ => represents_empty
  exact ⟨outcome.answers, fun place =>
    ⟨outcome.states place, toList_ascends (outcome.states place).valid⟩⟩

example : (runCalls carryOut
    [.ofList 0 [5, 1, 3], .insert 0 9, .ofList 1 [9, 4, 3], .unionNew 0 1 2, .insert 2 8, .same 0 2, .toList 0]
    fun _ => empty).2 =
      [.done, .flag true, .done, .listed [4], .flag true, .flag false, .listed [1, 3, 4, 5, 9]] := rfl

end GrammarReach.NodeSet
