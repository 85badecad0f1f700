import Mathlib.Algebra.BigOperators.Group.List.Basic
import Mathlib.Algebra.GroupWithZero.Nat
import Mathlib.Data.List.Nodup
import Mathlib.Logic.Relation
import GrammarReach.Components

/-!
The depth-first search closes exactly the classes of nodes that reach each other.

A node under exploration reaches everything above it on the stack. A node of the stack that was left
knows of a number below its own, so it reaches something further down; and whatever it was seen to lead
to on the stack is known to a node under exploration. So when a node knows of no number below its own,
what lies above it on the stack reaches it and leads to nothing further down: it is a class.
-/

namespace GrammarReach

open Relation (ReflTransGen)

namespace Successors

def Follows (successors : Successors) (src dst : Node) : Prop := dst ∈ successors.getD src ∅

/-- Whether a node comes after another along successors. -/
abbrev Reaches (successors : Successors) : Node → Node → Prop := ReflTransGen successors.Follows

def Mutual (successors : Successors) (one two : Node) : Prop :=
  successors.Reaches one two ∧ successors.Reaches two one

/-- Every successor has successors of its own listed, if only none. -/
def Closed (successors : Successors) : Prop := ∀ src dst, successors.Follows src dst → dst ∈ successors

private def withEdge (successors : Successors) (edge : Node × Node) : Successors :=
  let grown := successors.insert edge.1 ((successors.getD edge.1 ∅).insert edge.2)
  grown.insert edge.2 (grown.getD edge.2 ∅)

private theorem follows_withEdge (successors : Successors) (edge : Node × Node) (src dst : Node) :
    (successors.withEdge edge).Follows src dst ↔ successors.Follows src dst ∨ (src, dst) = edge := by
  obtain ⟨start, stop⟩ := edge
  have same : ∀ map : Successors, (map.insert stop (map.getD stop ∅)).getD src ∅ = map.getD src ∅ := by
    intro map
    simp only [Std.TreeMap.getD_insert, Std.LawfulEqCmp.compare_eq_iff_eq]
    split
    · next here => rw [here]
    · rfl
  rw [Follows, withEdge, same, Prod.mk.injEq]
  simp only [Std.TreeMap.getD_insert, Std.LawfulEqCmp.compare_eq_iff_eq]
  split
  · next here =>
    rw [Std.TreeSet.mem_insert, Std.LawfulEqCmp.compare_eq_iff_eq, Follows, here, or_comm]
    simp [eq_comm]
  · next elsewhere => simp [Follows, Ne.symm elsewhere]

private theorem mem_withEdge (successors : Successors) (edge : Node × Node) (node : Node) :
    node ∈ successors.withEdge edge ↔ node ∈ successors ∨ node = edge.1 ∨ node = edge.2 := by
  simp only [withEdge, Std.TreeMap.mem_insert, Std.LawfulEqCmp.compare_eq_iff_eq]
  tauto

theorem follows_ofEdges (edges : List (Node × Node)) (src dst : Node) :
    (ofEdges edges).Follows src dst ↔ (src, dst) ∈ edges := by
  have general : ∀ successors : Successors, Follows (edges.foldl withEdge successors) src dst ↔
      successors.Follows src dst ∨ (src, dst) ∈ edges := by
    induction edges with
    | nil => simp
    | cons edge edges ih =>
      intro successors
      rw [List.foldl_cons, ih, follows_withEdge, List.mem_cons, or_assoc]
  refine (general ∅).trans ?_
  simp [Follows]

/-- The nodes with successors listed are those that an edge mentions. -/
theorem mem_ofEdges (edges : List (Node × Node)) (node : Node) :
    node ∈ ofEdges edges ↔ ∃ edge ∈ edges, node = edge.1 ∨ node = edge.2 := by
  have general : ∀ successors : Successors, node ∈ edges.foldl withEdge successors ↔
      node ∈ successors ∨ ∃ edge ∈ edges, node = edge.1 ∨ node = edge.2 := by
    induction edges with
    | nil => simp
    | cons edge edges ih =>
      intro successors
      rw [List.foldl_cons, ih, mem_withEdge, List.exists_mem_cons_iff, or_assoc]
  refine (general ∅).trans ?_
  simp

theorem closed_ofEdges (edges : List (Node × Node)) : (ofEdges edges).Closed := by
  intro src dst follows
  exact (mem_ofEdges edges dst).mpr ⟨_, (follows_ofEdges edges src dst).mp follows, .inr rfl⟩

end Successors

namespace Search

variable {successors : Successors} {search : Search} {node target : Node}

def number (search : Search) (node : Node) : Nat := search.numbers.getD node 0

/-- The least number that an opened node knows of. -/
def low (search : Search) (node : Node) : Nat := search.lows.getD node 0

/-- The nodes under exploration, the latest first. -/
def active (search : Search) : List Node := search.frames.map Prod.fst

def Done (search : Search) (node : Node) : Prop := ∃ members ∈ search.closed, node ∈ members

def Examined (successors : Successors) (search : Search) (node target : Node) : Prop :=
  successors.Follows node target ∧ ∀ targets, (node, targets) ∈ search.frames → target ∉ targets

/-! ### What a search keeps -/

/-- How the nodes that have been opened are laid out. -/
structure Laid (successors : Successors) (search : Search) : Prop where
  sorted : search.stack.Pairwise fun late early => search.number early < search.number late
  recent : ∀ node ∈ search.stack, search.number node < search.next
  stacked : ∀ node, node ∈ search.onStack ↔ node ∈ search.stack
  lowered : ∀ node, node ∈ search.lows ↔ node ∈ search.numbers
  opened : ∀ node, node ∈ search.numbers ↔ node ∈ search.stack ∨ search.Done node
  apart : ∀ node ∈ search.stack, ¬ search.Done node
  nested : ∀ node ∈ search.active, node ∈ search.stack
  ordered : search.active.Pairwise fun late early => search.number early < search.number late
  /-- Nothing lies below the node where exploration started. -/
  grounded : ∀ node ∈ search.stack, ∃ base ∈ search.active, search.number base ≤ search.number node
  inside : ∀ node ∈ search.numbers, node ∈ successors
  rooted : ∀ node ∈ successors, node ∈ search.roots ∨ node ∈ search.numbers
  planned : ∀ node ∈ search.roots, node ∈ successors

/-- What the nodes of the stack know of each other. -/
structure Informed (successors : Successors) (search : Search) : Prop where
  pending : ∀ frame ∈ search.frames, ∀ target ∈ frame.2, successors.Follows frame.1 target
  own : ∀ node ∈ search.stack, search.low node ≤ search.number node
  /-- What a node knows is the number of a node of the stack that it reaches. -/
  seen : ∀ node ∈ search.stack, ∃ target ∈ search.stack,
    search.number target = search.low node ∧ successors.Reaches node target
  /-- A node that was left without a component knows of a number below its own. -/
  left : ∀ node ∈ search.stack, node ∉ search.active → search.low node < search.number node
  /-- A node under exploration reaches what was opened since. -/
  below : ∀ base ∈ search.active, ∀ node ∈ search.stack, search.number base ≤ search.number node →
    successors.Reaches base node
  met : ∀ node ∈ search.stack, ∀ target, Examined successors search node target →
    target ∈ search.numbers
  /-- What was seen on the stack from a node is known under exploration, no further down than the node
  and what lies below it there. -/
  reported : ∀ base ∈ search.active, ∀ node ∈ search.stack, search.number base ≤ search.number node →
    ∀ target ∈ search.stack, Examined successors search node target →
      ∃ other ∈ search.active, search.number base ≤ search.number other ∧
        search.low other ≤ search.number target

/-- What closed components are. -/
structure Exact (successors : Successors) (search : Search) : Prop where
  inhabited : ∀ members ∈ search.closed, members ≠ []
  classes : ∀ members ∈ search.closed, ∀ node ∈ members, ∀ other,
    other ∈ members ↔ successors.Mutual node other
  sealed : ∀ node, search.Done node → ∀ target, successors.Follows node target → search.Done target
  disjoint : search.closed.Pairwise List.Disjoint

/-- What every step of a search keeps. -/
structure Sound (successors : Successors) (search : Search) : Prop extends
  Laid successors search, Informed successors search, Exact successors search

theorem Laid.mem_numbers (laid : Laid successors search) (listed : node ∈ search.stack) :
    node ∈ search.numbers :=
  (laid.opened node).mpr (.inl listed)

theorem Laid.nodup (laid : Laid successors search) : search.stack.Nodup :=
  laid.sorted.imp fun {late early} less same => by
    rw [same] at less
    exact Nat.lt_irrefl _ less

/-- What is closed leads to closed nodes only. -/
theorem Exact.done_of_reaches (closed : Exact successors search) {other : Node} (done : search.Done node)
    (reaches : successors.Reaches node other) : search.Done other := by
  induction reaches with
  | refl => exact done
  | tail _ follows ih => exact closed.sealed _ ih _ follows

/-- A frame that is gone had no successor left to look at, or belongs to another node. -/
theorem Examined.of_frames {other : Search} (examined : Examined successors other node target)
    (kept : ∀ targets, (node, targets) ∈ search.frames → target ∈ targets → (node, targets) ∈ other.frames) :
    Examined successors search node target :=
  ⟨examined.1, fun targets listed inside => examined.2 targets (kept targets listed inside) inside⟩

/-! ### Opening a node -/

theorem number_openNode (successors : Successors) (search : Search) (node other : Node) :
    (search.openNode successors node).number other =
      if other = node then search.next else search.number other := by
  simp only [number, openNode, Std.TreeMap.getD_insert, Std.LawfulEqCmp.compare_eq_iff_eq,
    @eq_comm _ node]

theorem low_openNode (successors : Successors) (search : Search) (node other : Node) :
    (search.openNode successors node).low other =
      if other = node then search.next else search.low other := by
  simp only [low, openNode, Std.TreeMap.getD_insert, Std.LawfulEqCmp.compare_eq_iff_eq, @eq_comm _ node]

theorem next_openNode (new : node ∉ search.numbers) :
    (search.openNode successors node).next = search.next + 1 := by
  rw [next, openNode, Std.TreeMap.size_insert, if_neg (by simpa using new)]
  rfl

theorem mem_openNode (successors : Successors) (search : Search) (node other : Node) :
    other ∈ (search.openNode successors node).numbers ↔ other = node ∨ other ∈ search.numbers := by
  simp only [openNode, Std.TreeMap.mem_insert, Std.LawfulEqCmp.compare_eq_iff_eq, @eq_comm _ node]

section Opening

/-- A node on the stack is not the one that is opened, and keeps its number. -/
private theorem Laid.kept_openNode (laid : Laid successors search) (new : node ∉ search.numbers) {other : Node}
    (listed : other ∈ search.stack) :
    (search.openNode successors node).number other = search.number other ∧
      (search.openNode successors node).low other = search.low other := by
  have apart : other ≠ node := by
    rintro rfl
    exact new (laid.mem_numbers listed)
  simp [number_openNode, low_openNode, apart]

/-- The node that is opened has the next number, and knows of no other. -/
private theorem top_openNode (successors : Successors) (search : Search) (node : Node) :
    (search.openNode successors node).number node = search.next ∧
      (search.openNode successors node).low node = search.next := by
  simp [number_openNode, low_openNode]

theorem Laid.openNode (laid : Laid successors search) (new : node ∉ search.numbers)
    (key : node ∈ successors) : Laid successors (search.openNode successors node) := by
  have kept : ∀ other ∈ search.stack,
      (search.openNode successors node).number other = search.number other :=
    fun other listed => (laid.kept_openNode new listed).1
  have keptActive : ∀ other ∈ search.active,
      (search.openNode successors node).number other = search.number other :=
    fun other listed => kept other (laid.nested other listed)
  obtain ⟨top, -⟩ := top_openNode successors search node
  exact
    { sorted := by
        refine List.pairwise_cons.mpr ⟨fun other listed => ?_, laid.sorted.imp_of_mem fun one two less => ?_⟩
        · rw [kept other listed, top]
          exact laid.recent other listed
        · rwa [kept _ one, kept _ two]
      recent := by
        refine List.forall_mem_cons.mpr ⟨?_, fun other listed => ?_⟩
        · rw [top, next_openNode new]
          exact Nat.lt_succ_self _
        · rw [kept other listed, next_openNode new]
          exact Nat.lt_succ_of_lt (laid.recent other listed)
      stacked := by
        intro other
        simp only [Search.openNode, Std.TreeSet.mem_insert, Std.LawfulEqCmp.compare_eq_iff_eq, List.mem_cons,
          laid.stacked, @eq_comm _ node]
      lowered := by
        intro other
        rw [mem_openNode, ← laid.lowered]
        simp only [Search.openNode, Std.TreeMap.mem_insert, Std.LawfulEqCmp.compare_eq_iff_eq,
          @eq_comm _ node]
      opened := by
        intro other
        rw [mem_openNode, laid.opened, ← or_assoc]
        exact or_congr_left List.mem_cons.symm
      apart := List.forall_mem_cons.mpr
        ⟨fun done => new ((laid.opened node).mpr (.inr done)), laid.apart⟩
      nested := List.forall_mem_cons.mpr
        ⟨List.mem_cons_self, fun other listed => List.mem_cons_of_mem _ (laid.nested other listed)⟩
      ordered := by
        refine List.pairwise_cons.mpr ⟨fun other listed => ?_, laid.ordered.imp_of_mem fun one two less => ?_⟩
        · rw [keptActive other listed, top]
          exact laid.recent other (laid.nested other listed)
        · rwa [keptActive _ one, keptActive _ two]
      grounded := by
        refine List.forall_mem_cons.mpr ⟨⟨node, List.mem_cons_self, Nat.le_refl _⟩, fun other listed => ?_⟩
        obtain ⟨base, active, less⟩ := laid.grounded other listed
        refine ⟨base, List.mem_cons_of_mem _ active, ?_⟩
        rwa [kept other listed, keptActive base active]
      inside := by
        intro other listed
        obtain rfl | old := (mem_openNode successors search node other).mp listed
        · exact key
        · exact laid.inside other old
      rooted := fun other listed =>
        (laid.rooted other listed).imp_right fun old => (mem_openNode ..).mpr (.inr old)
      planned := laid.planned }

/-- None of the successors of a node that has just been opened has been looked at. -/
theorem not_examined_openNode (successors : Successors) (search : Search) (node target : Node) :
    ¬ Examined successors (search.openNode successors node) node target := by
  rintro ⟨follows, looked⟩
  exact looked _ List.mem_cons_self (Std.TreeSet.mem_toList.mpr follows)

/-- Nothing on the stack was opened after the node that is opened now. -/
private theorem Laid.not_above_openNode (laid : Laid successors search) (new : node ∉ search.numbers)
    {other : Node} (listed : other ∈ search.stack) :
    ¬ (search.openNode successors node).number node ≤ (search.openNode successors node).number other := by
  rw [(top_openNode successors search node).1, (laid.kept_openNode new listed).1]
  exact Nat.not_le.mpr (laid.recent other listed)

theorem Informed.openNode (laid : Laid successors search) (informed : Informed successors search)
    (new : node ∉ search.numbers) (reaching : ∀ base ∈ search.active, successors.Reaches base node) :
    Informed successors (search.openNode successors node) := by
  have kept : ∀ other ∈ search.stack,
      (search.openNode successors node).number other = search.number other :=
    fun other listed => (laid.kept_openNode new listed).1
  have keptLow : ∀ other ∈ search.stack,
      (search.openNode successors node).low other = search.low other :=
    fun other listed => (laid.kept_openNode new listed).2
  obtain ⟨top, topLow⟩ := top_openNode successors search node
  have unseen := not_examined_openNode successors search node
  have earlier : ∀ {other target}, Examined successors (search.openNode successors node) other target →
      Examined successors search other target := fun examined =>
    examined.of_frames fun _ listed _ => List.mem_cons_of_mem _ listed
  exact
    { pending := List.forall_mem_cons.mpr
        ⟨fun target listed => Std.TreeSet.mem_toList.mp listed, informed.pending⟩
      own := by
        refine List.forall_mem_cons.mpr ⟨Nat.le_of_eq (topLow.trans top.symm), fun other listed => ?_⟩
        rw [kept other listed, keptLow other listed]
        exact informed.own other listed
      seen := by
        refine List.forall_mem_cons.mpr ⟨⟨node, List.mem_cons_self, top.trans topLow.symm, .refl⟩,
          fun other listed => ?_⟩
        obtain ⟨target, there, same, reaches⟩ := informed.seen other listed
        refine ⟨target, List.mem_cons_of_mem _ there, ?_, reaches⟩
        rwa [kept target there, keptLow other listed]
      left := by
        refine List.forall_mem_cons.mpr
          ⟨fun idle => absurd List.mem_cons_self idle, fun other listed idle => ?_⟩
        rw [kept other listed, keptLow other listed]
        exact informed.left other listed fun active => idle (List.mem_cons_of_mem _ active)
      below := by
        refine List.forall_mem_cons.mpr ⟨List.forall_mem_cons.mpr ⟨fun _ => .refl, fun other listed above => ?_⟩,
          fun base active => List.forall_mem_cons.mpr ⟨fun _ => reaching base active,
            fun other listed above => ?_⟩⟩
        · exact absurd above (laid.not_above_openNode new listed)
        · rw [kept other listed, kept base (laid.nested base active)] at above
          exact informed.below base active other listed above
      met := by
        refine List.forall_mem_cons.mpr ⟨fun target examined => absurd examined (unseen target),
          fun other listed target examined => ?_⟩
        exact (mem_openNode ..).mpr (.inr (informed.met other listed target (earlier examined)))
      reported := by
        refine List.forall_mem_cons.mpr ⟨List.forall_mem_cons.mpr
            ⟨fun _ target _ examined => absurd examined (unseen target), fun other listed above => ?_⟩,
          fun base active => List.forall_mem_cons.mpr
            ⟨fun _ target _ examined => absurd examined (unseen target), fun other listed above =>
              List.forall_mem_cons.mpr ⟨fun examined => ?_, fun target there examined => ?_⟩⟩⟩
        · exact absurd above (laid.not_above_openNode new listed)
        · exact absurd (informed.met other listed node (earlier examined)) new
        · rw [kept other listed, kept base (laid.nested base active)] at above
          obtain ⟨witness, among, high, knows⟩ :=
            informed.reported base active other listed above target there (earlier examined)
          refine ⟨witness, List.mem_cons_of_mem _ among, ?_, ?_⟩
          · rwa [kept witness (laid.nested witness among), kept base (laid.nested base active)]
          · rwa [kept target there, keptLow witness (laid.nested witness among)] }

theorem Sound.openNode (sound : Sound successors search) (new : node ∉ search.numbers)
    (key : node ∈ successors) (reaching : ∀ base ∈ search.active, successors.Reaches base node) :
    Sound successors (search.openNode successors node) where
  toLaid := sound.toLaid.openNode new key
  toInformed := sound.toInformed.openNode sound.toLaid new reaching
  toExact := { sound.toExact with }

end Opening

/-! ### Knowing of a number -/

theorem low_lower (known : node ∈ search.lows) (number : Nat) (other : Node) :
    (search.lower node number).low other =
      if other = node then min (search.low node) number else search.low other := by
  obtain ⟨low, found⟩ := Option.isSome_iff_exists.mp (Std.TreeMap.isSome_getElem?_iff_mem.mpr known)
  simp only [Search.low, lower, Std.TreeMap.getD_eq_getD_getElem?, Std.TreeMap.getElem?_modify,
    Std.LawfulEqCmp.compare_eq_iff_eq, @eq_comm _ node]
  split
  · simp [found]
  · rfl

theorem Sound.lower (sound : Sound successors search) (listed : node ∈ search.stack) {number : Nat}
    (seen : ∃ target ∈ search.stack, search.number target = number ∧ successors.Reaches node target) :
    Sound successors (search.lower node number) := by
  have low := low_lower ((sound.lowered node).mpr (sound.toLaid.mem_numbers listed)) number
  have lower : ∀ other, (search.lower node number).low other ≤ search.low other := by
    intro other
    rw [low]
    split
    · next here => exact here ▸ Nat.min_le_left ..
    · exact Nat.le_refl _
  exact
    { sound with
      lowered := fun other => Std.TreeMap.mem_modify.trans (sound.lowered other)
      own := fun other there => Nat.le_trans (lower other) (sound.own other there)
      seen := by
        intro other there
        rw [low]
        split
        · next here =>
          rw [here]
          obtain keeps | falls := Nat.le_total (search.low node) number
          · rw [Nat.min_eq_left keeps]
            exact sound.seen node listed
          · rw [Nat.min_eq_right falls]
            exact seen
        · exact sound.seen other there
      left := fun other there idle => Nat.lt_of_le_of_lt (lower other) (sound.left other there idle)
      reported := by
        intro base active other there less target onStack examined
        obtain ⟨witness, among, above, knows⟩ :=
          sound.reported base active other there less target onStack examined
        exact ⟨witness, among, above, Nat.le_trans (lower witness) knows⟩ }

/-! ### Going on with the next successor -/

/-- A successor on the stack is passed over when its number is known further up under exploration. -/
theorem Sound.advance (sound : Sound successors search) (inner : List (Node × List Node))
    {outer : List (Node × List Node)} {targets : List Node}
    (frames : search.frames = inner ++ (node, target :: targets) :: outer)
    (met : target ∈ search.numbers) (known : target ∈ search.stack → ∃ other ∈ search.active,
      search.number node ≤ search.number other ∧ search.low other ≤ search.number target) :
    Sound successors { search with frames := inner ++ (node, targets) :: outer } := by
  have active : ({ search with frames := inner ++ (node, targets) :: outer } : Search).active =
      search.active := by
    simp [Search.active, frames]
  have fresh : ∀ {other stop}, Examined successors
      { search with frames := inner ++ (node, targets) :: outer } other stop →
      Examined successors search other stop ∨ (other = node ∧ stop = target) := by
    intro other stop examined
    rw [or_iff_not_imp_right]
    intro differs
    refine ⟨examined.1, fun rest listed inside => ?_⟩
    rw [frames, List.mem_append, List.mem_cons] at listed
    obtain listed | same | listed := listed
    · exact examined.2 rest (List.mem_append_left _ listed) inside
    · obtain ⟨rfl, rfl⟩ := Prod.mk.inj same
      obtain rfl | inside := List.mem_cons.mp inside
      · exact differs ⟨rfl, rfl⟩
      · exact examined.2 targets (List.mem_append_right _ List.mem_cons_self) inside
    · exact examined.2 rest (List.mem_append_right _ (List.mem_cons_of_mem _ listed)) inside
  exact
    { sound with
      nested := active ▸ sound.nested
      ordered := active ▸ sound.ordered
      grounded := active ▸ sound.grounded
      pending := by
        have pending := sound.pending
        rw [frames] at pending
        intro frame inside
        obtain listed | same | listed := (List.mem_append.trans (or_congr_right List.mem_cons)).mp inside
        · exact pending frame (List.mem_append_left _ listed)
        · rw [same]
          exact (List.forall_mem_cons.mp (pending _ (List.mem_append_right _ List.mem_cons_self))).2
        · exact pending frame (List.mem_append_right _ (List.mem_cons_of_mem _ listed))
      left := active ▸ sound.left
      below := active ▸ sound.below
      met := by
        intro other there stop examined
        obtain old | ⟨-, rfl⟩ := fresh examined
        · exact sound.met other there stop old
        · exact met
      reported := by
        intro base among other there less stop onStack examined
        rw [active] at among ⊢
        obtain old | ⟨rfl, rfl⟩ := fresh examined
        · exact sound.reported base among other there less stop onStack old
        · obtain ⟨witness, inside, above, knows⟩ := known onStack
          exact ⟨witness, inside, Nat.le_trans less above, knows⟩ }

/-! ### Leaving a node -/

/-- The node under exploration was opened after all others that are. -/
theorem Sound.active_cons (sound : Sound successors search) {targets : List Node}
    {frames : List (Node × List Node)} (top : search.frames = (node, targets) :: frames) :
    node ∈ search.stack ∧ (∀ other ∈ frames.map Prod.fst, search.number other < search.number node) ∧
      ∀ other, other ∈ search.active ↔ other = node ∨ other ∈ frames.map Prod.fst := by
  have active : search.active = node :: frames.map Prod.fst := by rw [Search.active, top, List.map_cons]
  have ordered := sound.ordered
  rw [active] at ordered
  refine ⟨sound.nested node (active ▸ List.mem_cons_self), (List.pairwise_cons.mp ordered).1, fun other => ?_⟩
  rw [active, List.mem_cons]

/-- All successors of a node have been looked at when none is left in its frame, and it stays so. -/
private theorem examined_of_leave {frames : List (Node × List Node)} {other : Node}
    (top : search.frames = (node, []) :: frames) :
    Examined successors { search with frames } other target → Examined successors search other target := by
  intro examined
  refine examined.of_frames fun targets listed inside => ?_
  rw [top] at listed
  obtain same | listed := List.mem_cons.mp listed
  · rw [(Prod.mk.inj same).2] at inside
    cases inside
  · exact listed

/-- A node that knows of a number below its own stays on the stack when it is left. -/
theorem Sound.leave (sound : Sound successors search) {frames : List (Node × List Node)}
    (top : search.frames = (node, []) :: frames) (differs : search.low node ≠ search.number node)
    (informs : ∀ parent ∈ frames.head?, search.low parent.1 ≤ search.low node) :
    Sound successors { search with frames } := by
  obtain ⟨listed, earlier, active⟩ := sound.active_cons top
  have less := Nat.lt_of_le_of_ne (sound.own node listed) differs
  have ordered := sound.ordered
  rw [Search.active, top] at ordered
  -- Something under exploration lies below the node: what it knows of does not lie above that.
  obtain ⟨ground, under, lies⟩ : ∃ ground ∈ frames.map Prod.fst, search.number ground ≤ search.number node := by
    obtain ⟨target, there, same, -⟩ := sound.seen node listed
    obtain ⟨ground, among, lies⟩ := sound.grounded target there
    obtain rfl | under := (active ground).mp among
    · omega
    · exact ⟨ground, under, by omega⟩
  have nested : ∀ other ∈ frames.map Prod.fst, other ∈ search.active := fun other inside =>
    (active other).mpr (.inr inside)
  exact
    { sound with
      nested := fun other inside => sound.nested other (nested other inside)
      ordered := (List.pairwise_cons.mp ordered).2
      grounded := by
        intro other there
        obtain ⟨base, among, low⟩ := sound.grounded other there
        obtain rfl | inside := (active base).mp among
        · exact ⟨ground, under, Nat.le_trans lies low⟩
        · exact ⟨base, inside, low⟩
      pending := fun frame inside => sound.pending frame (top ▸ List.mem_cons_of_mem _ inside)
      left := by
        intro other there idle
        by_cases same : other = node
        · rw [same]
          exact less
        · exact sound.left other there fun among => ((active other).mp among).elim same idle
      below := fun base inside => sound.below base (nested base inside)
      met := fun other there stop examined => sound.met other there stop (examined_of_leave top examined)
      reported := by
        intro base inside other there above stop onStack examined
        obtain ⟨witness, among, high, knows⟩ := sound.reported base (nested base inside) other there above
          stop onStack (examined_of_leave top examined)
        obtain rfl | stays := (active witness).mp among
        · -- The parent knows what the node knew.
          cases frames with
          | nil => cases inside
          | cons parent frames =>
            refine ⟨parent.1, List.mem_cons_self, ?_, Nat.le_trans (informs parent rfl) knows⟩
            obtain rfl | further := List.mem_cons.mp inside
            · exact Nat.le_refl _
            · exact Nat.le_of_lt
                ((List.pairwise_cons.mp (List.pairwise_cons.mp ordered).2).1 base further)
        · exact ⟨witness, stays, high, knows⟩ }

/-! ### Closing a component -/

/-- What a node leads to whose component is about to be closed: nothing below it on the stack. -/
private theorem Sound.within (sound : Sound successors search) {frames : List (Node × List Node)}
    (top : search.frames = (node, []) :: frames) (same : search.low node = search.number node)
    {start stop : Node} (there : start ∈ search.stack) (above : search.number node ≤ search.number start)
    (reaches : successors.Reaches start stop) :
    (stop ∈ search.stack ∧ search.number node ≤ search.number stop) ∨ search.Done stop := by
  obtain ⟨-, earlier, active⟩ := sound.active_cons top
  induction reaches with
  | refl => exact .inl ⟨there, above⟩
  | @tail between stop _ follows ih =>
    obtain ⟨onStack, high⟩ | done := ih
    · have examined : Examined successors search between stop := by
        refine ⟨follows, fun targets listed inside => ?_⟩
        rw [top] at listed
        obtain equal | listed := List.mem_cons.mp listed
        · rw [(Prod.mk.inj equal).2] at inside
          cases inside
        · exact absurd (earlier between (List.mem_map_of_mem listed)) (Nat.not_lt.mpr high)
      obtain onStack' | done := (sound.opened stop).mp (sound.met between onStack stop examined)
      · obtain ⟨other, among, level, knows⟩ := sound.reported node ((active node).mpr (.inl rfl)) between
          onStack high stop onStack' examined
        obtain rfl | under := (active other).mp among
        · exact .inl ⟨onStack', same ▸ knows⟩
        · exact absurd (earlier other under) (Nat.not_lt.mpr level)
      · exact .inr done
    · exact .inr (sound.sealed between done stop follows)

/-- What lies above such a node reaches it. -/
private theorem Sound.back (sound : Sound successors search) {frames : List (Node × List Node)}
    (top : search.frames = (node, []) :: frames) (same : search.low node = search.number node)
    (other : Node) (there : other ∈ search.stack) (above : search.number node ≤ search.number other) :
    successors.Reaches other node := by
  obtain ⟨-, earlier, active⟩ := sound.active_cons top
  by_cases equal : other = node
  · rw [equal]
  · have idle : other ∉ search.active := fun among => ((active other).mp among).elim equal fun under =>
      absurd (earlier other under) (Nat.not_lt.mpr above)
    have less := sound.left other there idle
    obtain ⟨target, onStack, number, reaches⟩ := sound.seen other there
    obtain ⟨-, high⟩ | done := sound.within top same there above reaches
    · exact reaches.trans (sound.back top same target onStack high)
    · exact absurd done (sound.apart target onStack)
termination_by search.number other

/-- The stack where the component of a node is closed: the node with what lies above it, and what lies
below. -/
structure Split (search : Search) (node : Node) (pile rest : List Node) : Prop where
  stack : search.stack = pile ++ node :: rest
  above : ∀ other, other ∈ node :: pile ↔ other ∈ search.stack ∧ search.number node ≤ search.number other
  under : ∀ other, other ∈ rest ↔ other ∈ search.stack ∧ search.number other < search.number node

theorem Laid.exists_split (laid : Laid successors search) (listed : node ∈ search.stack) :
    ∃ pile rest, Split search node pile rest := by
  obtain ⟨pile, rest, stack⟩ := List.append_of_mem listed
  have sorted := laid.sorted
  rw [stack, List.pairwise_append] at sorted
  obtain ⟨-, lower, cross⟩ := sorted
  have high : ∀ other ∈ pile, search.number node < search.number other := fun other inside =>
    cross other inside node List.mem_cons_self
  have low : ∀ other ∈ rest, search.number other < search.number node := (List.pairwise_cons.mp lower).1
  refine ⟨pile, rest, stack, fun other => ?_, fun other => ?_⟩
  · rw [stack, List.mem_append, List.mem_cons, List.mem_cons]
    constructor
    · rintro (rfl | inside)
      · exact ⟨.inr (.inl rfl), Nat.le_refl _⟩
      · exact ⟨.inl inside, Nat.le_of_lt (high other inside)⟩
    · rintro ⟨inside | rfl | inside, level⟩
      · exact .inr inside
      · exact .inl rfl
      · exact absurd (low other inside) (Nat.not_lt.mpr level)
  · rw [stack, List.mem_append, List.mem_cons]
    constructor
    · exact fun inside => ⟨.inr (.inr inside), low other inside⟩
    · rintro ⟨inside | rfl | inside, less⟩
      · exact absurd less (Nat.lt_asymm (high other inside))
      · exact absurd less (Nat.lt_irrefl _)
      · exact inside

private theorem mem_foldl_erase (members : List Node) (set : Std.TreeSet Node) (other : Node) :
    other ∈ members.foldl (·.erase ·) set ↔ other ∈ set ∧ other ∉ members := by
  induction members generalizing set with
  | nil => simp
  | cons member members ih =>
    rw [List.foldl_cons, ih, Std.TreeSet.mem_erase, Ne, Std.LawfulEqCmp.compare_eq_iff_eq, List.mem_cons,
      not_or]
    constructor
    · rintro ⟨⟨differs, there⟩, rest⟩
      exact ⟨there, Ne.symm differs, rest⟩
    · rintro ⟨there, differs, rest⟩
      exact ⟨⟨Ne.symm differs, there⟩, rest⟩

section Closing

variable {frames : List (Node × List Node)} {pile rest : List Node}

theorem Split.closeNode_eq (split : Split search node pile rest) (laid : Laid successors search)
    (frames : List (Node × List Node)) :
    ({ search with frames } : Search).closeNode node =
      { search with
        frames
        stack := rest
        onStack := (node :: pile).foldl (·.erase ·) search.onStack
        closed := (node :: pile) :: search.closed } := by
  have nodup := laid.nodup
  rw [split.stack, List.nodup_middle, List.nodup_cons, List.mem_append, not_or] at nodup
  have apart : ∀ other ∈ pile, (other != node) = true := fun other inside =>
    bne_iff_ne.mpr fun same => nodup.1.1 (same ▸ inside)
  have above : search.stack.takeWhile (· != node) = pile := by
    rw [split.stack, List.takeWhile_append_of_pos apart, List.takeWhile_cons_of_neg (by simp),
      List.append_nil]
  have under : (search.stack.dropWhile (· != node)).tail = rest := by
    rw [split.stack, List.dropWhile_append_of_pos apart, List.dropWhile_cons_of_neg (by simp),
      List.tail_cons]
  simp only [closeNode, above, under]

/-- What lies above a node whose component is closed does not lie below it. -/
theorem Split.not_mem (split : Split search node pile rest) {other : Node} (inside : other ∈ rest) :
    other ∉ node :: pile := fun member =>
  Nat.not_lt.mpr ((split.above other).mp member).2 ((split.under other).mp inside).2

/-- What is closed once the component of a node is. -/
theorem Split.done_iff (split : Split search node pile rest) (laid : Laid successors search)
    (frames : List (Node × List Node)) (other : Node) :
    (({ search with frames } : Search).closeNode node).Done other ↔
      other ∈ node :: pile ∨ search.Done other := by
  rw [split.closeNode_eq laid]
  exact List.exists_mem_cons_iff ..

private theorem Sound.laid_closeNode (sound : Sound successors search)
    (top : search.frames = (node, []) :: frames) (split : Split search node pile rest) :
    Laid successors (({ search with frames } : Search).closeNode node) := by
  obtain ⟨-, earlier, active⟩ := sound.active_cons top
  have done := split.done_iff sound.toLaid frames
  rw [split.closeNode_eq sound.toLaid] at done ⊢
  have ordered := sound.ordered
  rw [Search.active, top] at ordered
  exact
    { sorted := by
        have sorted := sound.sorted
        rw [split.stack] at sorted
        exact (List.pairwise_cons.mp (List.pairwise_append.mp sorted).2.1).2
      recent := fun other inside => sound.recent other ((split.under other).mp inside).1
      stacked := by
        intro other
        refine (mem_foldl_erase ..).trans ((and_congr_left' (sound.stacked other)).trans ?_)
        constructor
        · rintro ⟨there, outside⟩
          exact (split.under other).mpr
            ⟨there, Nat.lt_of_not_le fun level => outside ((split.above other).mpr ⟨there, level⟩)⟩
        · exact fun inside => ⟨((split.under other).mp inside).1, split.not_mem inside⟩
      lowered := sound.lowered
      opened := by
        intro other
        refine (sound.opened other).trans (Iff.trans ?_ (or_congr_right (done other)).symm)
        rw [split.stack, List.mem_append, List.mem_cons, List.mem_cons]
        tauto
      apart := fun other inside closed => ((done other).mp closed).elim (split.not_mem inside)
        (sound.apart other ((split.under other).mp inside).1)
      nested := fun other inside => (split.under other).mpr
        ⟨sound.nested other ((active other).mpr (.inr inside)), earlier other inside⟩
      ordered := (List.pairwise_cons.mp ordered).2
      grounded := by
        intro other inside
        obtain ⟨there, less⟩ := (split.under other).mp inside
        obtain ⟨base, among, low⟩ := sound.grounded other there
        obtain rfl | stays := (active base).mp among
        · exact absurd less (Nat.not_lt.mpr low)
        · exact ⟨base, stays, low⟩
      inside := sound.inside
      rooted := sound.rooted
      planned := sound.planned }

private theorem Sound.informed_closeNode (sound : Sound successors search)
    (top : search.frames = (node, []) :: frames) (same : search.low node = search.number node)
    (split : Split search node pile rest) :
    Informed successors (({ search with frames } : Search).closeNode node) := by
  obtain ⟨-, -, active⟩ := sound.active_cons top
  rw [split.closeNode_eq sound.toLaid]
  have there : ∀ other ∈ rest, other ∈ search.stack := fun other inside =>
    ((split.under other).mp inside).1
  have less : ∀ other ∈ rest, search.number other < search.number node := fun other inside =>
    ((split.under other).mp inside).2
  exact
    { pending := fun frame inside => sound.pending frame (top ▸ List.mem_cons_of_mem _ inside)
      own := fun other inside => sound.own other (there other inside)
      seen := by
        intro other inside
        obtain ⟨target, onStack, number, reaches⟩ := sound.seen other (there other inside)
        refine ⟨target, (split.under target).mpr ⟨onStack, ?_⟩, number, reaches⟩
        exact number ▸ Nat.lt_of_le_of_lt (sound.own other (there other inside)) (less other inside)
      left := by
        intro other inside idle
        refine sound.left other (there other inside) fun among => ((active other).mp among).elim ?_ idle
        rintro rfl
        exact Nat.lt_irrefl _ (less other inside)
      below := fun base inside other low =>
        sound.below base ((active base).mpr (.inr inside)) other (there other low)
      met := fun other inside stop examined =>
        sound.met other (there other inside) stop (examined_of_leave top examined)
      reported := by
        intro base inside other low level stop onStack examined
        obtain ⟨witness, among, high, knows⟩ := sound.reported base ((active base).mpr (.inr inside)) other
          (there other low) level stop (there stop onStack) (examined_of_leave top examined)
        obtain rfl | stays := (active witness).mp among
        · exact absurd (less stop onStack) (Nat.not_lt.mpr (same ▸ knows))
        · exact ⟨witness, stays, high, knows⟩ }

/-- The node with what lies above it is a class. -/
private theorem Sound.mem_pile_iff (sound : Sound successors search)
    (top : search.frames = (node, []) :: frames) (same : search.low node = search.number node)
    (split : Split search node pile rest) {one : Node} (first : one ∈ node :: pile) (two : Node) :
    two ∈ node :: pile ↔ successors.Mutual one two := by
  obtain ⟨-, -, active⟩ := sound.active_cons top
  have hub : ∀ other ∈ node :: pile, successors.Mutual node other := fun other member => by
    obtain ⟨there, level⟩ := (split.above other).mp member
    exact ⟨sound.below node ((active node).mpr (.inl rfl)) other there level,
      sound.back top same other there level⟩
  constructor
  · exact fun second =>
      ⟨(hub one first).2.trans (hub two second).1, (hub two second).2.trans (hub one first).1⟩
  · rintro ⟨forth, back⟩
    obtain ⟨there, level⟩ := (split.above one).mp first
    obtain inside | closed := sound.within top same there level forth
    · exact (split.above two).mpr inside
    · exact absurd (sound.toExact.done_of_reaches closed back) (sound.apart one there)

private theorem Sound.exact_closeNode (sound : Sound successors search)
    (top : search.frames = (node, []) :: frames) (same : search.low node = search.number node)
    (split : Split search node pile rest) :
    Exact successors (({ search with frames } : Search).closeNode node) := by
  have done := split.done_iff sound.toLaid frames
  rw [split.closeNode_eq sound.toLaid] at done ⊢
  exact
    { inhabited := List.forall_mem_cons.mpr ⟨List.cons_ne_nil _ _, sound.inhabited⟩
      classes := List.forall_mem_cons.mpr
        ⟨fun one first => sound.mem_pile_iff top same split first, sound.classes⟩
      sealed := by
        intro other closed stop follows
        refine (done stop).mpr ?_
        obtain member | closed := (done other).mp closed
        · obtain ⟨there, level⟩ := (split.above other).mp member
          exact (sound.within top same there level (.single follows)).imp_left (split.above stop).mpr
        · exact .inr (sound.sealed other closed stop follows)
      disjoint := by
        refine List.pairwise_cons.mpr ⟨fun closed inside other first second => ?_, sound.disjoint⟩
        exact sound.apart other ((split.above other).mp first).1 ⟨closed, inside, second⟩ }

/-- A node that knows of no number but its own has its class above it on the stack. -/
theorem Sound.close (sound : Sound successors search) (top : search.frames = (node, []) :: frames)
    (same : search.low node = search.number node) :
    Sound successors (({ search with frames } : Search).closeNode node) := by
  obtain ⟨pile, rest, split⟩ := sound.toLaid.exists_split (sound.active_cons top).1
  exact ⟨sound.laid_closeNode top split, sound.informed_closeNode top same split,
    sound.exact_closeNode top same split⟩

end Closing

/-! ### The steps -/

/-- Opening a successor of the node under exploration. -/
private theorem Sound.enter (closed : successors.Closed) (sound : Sound successors search)
    {targets : List Node} {frames : List (Node × List Node)}
    (top : search.frames = (node, target :: targets) :: frames) (new : target ∉ search.numbers) :
    Sound successors
      (({ search with frames := (node, targets) :: frames } : Search).openNode successors target) := by
  obtain ⟨listed, earlier, active⟩ := sound.active_cons top
  have follows : successors.Follows node target :=
    sound.pending (node, target :: targets) (top ▸ List.mem_cons_self) target List.mem_cons_self
  have opened := sound.openNode new (closed _ _ follows) fun base among => by
    refine (sound.below base among node listed ?_).tail follows
    obtain rfl | under := (active base).mp among
    · exact Nat.le_refl _
    · exact Nat.le_of_lt (earlier base under)
  have known : search.number node ≤ search.next ∧ node ≠ target := by
    refine ⟨Nat.le_of_lt (sound.recent node listed), ?_⟩
    rintro rfl
    exact new (sound.toLaid.mem_numbers listed)
  refine opened.advance [(target, (successors.getD target ∅).toList)]
    (congrArg _ top) ((mem_openNode ..).mpr (.inl rfl)) fun _ => ⟨target, List.mem_cons_self, ?_, ?_⟩
  · rw [number_openNode, number_openNode, if_neg known.2, if_pos rfl]
    exact known.1
  · exact opened.own target List.mem_cons_self

/-- Passing over a successor that has been opened before. -/
private theorem Sound.pass (sound : Sound successors search) {targets : List Node}
    {frames : List (Node × List Node)} (top : search.frames = (node, target :: targets) :: frames)
    (met : target ∈ search.numbers) :
    Sound successors (if search.onStack.contains target then
        ({ search with frames := (node, targets) :: frames } : Search).lower node (search.number target)
      else { search with frames := (node, targets) :: frames }) := by
  obtain ⟨listed, -, active⟩ := sound.active_cons top
  split
  · next onStack =>
    have there := (sound.stacked target).mp (Std.TreeSet.contains_iff_mem.mp onStack)
    have follows : successors.Follows node target :=
      sound.pending (node, target :: targets) (top ▸ List.mem_cons_self) target List.mem_cons_self
    have informed := sound.lower listed ⟨target, there, rfl, .single follows⟩
    refine informed.advance [] top met fun _ => ⟨node, (active node).mpr (.inl rfl), Nat.le_refl _, ?_⟩
    rw [low_lower ((sound.lowered node).mpr (sound.toLaid.mem_numbers listed)), if_pos rfl]
    exact Nat.min_le_right ..
  · next elsewhere =>
    refine sound.advance [] top met fun there => absurd ?_ elsewhere
    exact Std.TreeSet.contains_iff_mem.mpr ((sound.stacked target).mpr there)

/-- A node that is left reports to the one below it. -/
private theorem Sound.inform (sound : Sound successors search) {targets : List Node} {parent : Node × List Node}
    {frames : List (Node × List Node)} (top : search.frames = (node, targets) :: parent :: frames) :
    Sound successors (search.lower parent.1 (search.low node)) ∧
      ∀ other, (search.lower parent.1 (search.low node)).low other =
        if other = parent.1 then min (search.low parent.1) (search.low node) else search.low other := by
  obtain ⟨listed, earlier, active⟩ := sound.active_cons top
  have among : parent.1 ∈ search.active := (active _).mpr (.inr List.mem_cons_self)
  have under := earlier parent.1 List.mem_cons_self
  obtain ⟨target, there, same, reaches⟩ := sound.seen node listed
  have below := sound.below parent.1 among node listed (Nat.le_of_lt under)
  refine ⟨sound.lower (sound.nested _ among) ⟨target, there, same, below.trans reaches⟩, low_lower ?_ _⟩
  exact (sound.lowered _).mpr (sound.toLaid.mem_numbers (sound.nested _ among))

/-- The two look-ups of a numbered node agree when its numbers do. -/
private theorem lookups_eq_iff (sound : Laid successors search) (listed : node ∈ search.stack) :
    search.lows[node]? = search.numbers[node]? ↔ search.low node = search.number node := by
  have numbered := sound.mem_numbers listed
  have lowered := (sound.lowered node).mpr numbered
  rw [low, number, Std.TreeMap.getD_eq_getD_getElem?, Std.TreeMap.getD_eq_getD_getElem?]
  obtain ⟨one, first⟩ := Option.isSome_iff_exists.mp (Std.TreeMap.isSome_getElem?_iff_mem.mpr lowered)
  obtain ⟨two, second⟩ := Option.isSome_iff_exists.mp (Std.TreeMap.isSome_getElem?_iff_mem.mpr numbered)
  rw [first, second, Option.some.injEq, Option.getD_some, Option.getD_some]

/-- Leaving a node that has reported, with its component if it has one. -/
private theorem Sound.depart (sound : Sound successors search) {frames : List (Node × List Node)}
    (top : search.frames = (node, []) :: frames)
    (informs : ∀ parent ∈ frames.head?, search.low parent.1 ≤ search.low node) :
    Sound successors (if search.lows[node]? = search.numbers[node]? then
        ({ search with frames } : Search).closeNode node
      else { search with frames }) := by
  have same := lookups_eq_iff sound.toLaid (sound.active_cons top).1
  split
  · next equal => exact sound.close top (same.mp equal)
  · next differs => exact sound.leave top (fun equal => differs (same.mpr equal)) informs

private theorem Sound.finish (sound : Sound successors search) {frames : List (Node × List Node)}
    (top : search.frames = (node, []) :: frames) :
    let left := ({ search with frames } : Search).report node
    Sound successors (if left.lows[node]? = left.numbers[node]? then left.closeNode node else left) := by
  obtain ⟨listed, earlier, -⟩ := sound.active_cons top
  have lowered := (sound.lowered node).mpr (sound.toLaid.mem_numbers listed)
  obtain ⟨low, found⟩ := Option.isSome_iff_exists.mp (Std.TreeMap.isSome_getElem?_iff_mem.mpr lowered)
  have value : low = search.low node := by rw [Search.low, Std.TreeMap.getD_eq_getD_getElem?, found]; rfl
  cases frames with
  | nil => exact sound.depart top (by simp)
  | cons parent frames =>
    have reported : ({ search with frames := parent :: frames } : Search).report node =
        { search.lower parent.1 (search.low node) with frames := parent :: frames } := by
      simp only [report, found, value]
      rfl
    obtain ⟨informed, lows⟩ := sound.inform top
    rw [reported]
    refine informed.depart top fun other first => ?_
    obtain rfl := Option.some.inj first
    have apart : node ≠ parent.1 := fun same => Nat.lt_irrefl _ (same ▸ earlier parent.1 List.mem_cons_self)
    rw [lows, lows, if_pos rfl, if_neg apart]
    exact Nat.min_le_right ..

private theorem not_mem_of_getElem? (new : search.numbers[node]? = none) : node ∉ search.numbers := by
  rw [← Std.TreeMap.isSome_getElem?_iff_mem, new]
  exact Bool.false_ne_true

/-- A root need not be tried once it is open. -/
private theorem Sound.skip (sound : Sound successors search) (root : Node) {roots : List Node}
    (listed : search.roots = root :: roots) (opened : root ∈ search.numbers) :
    Sound successors { search with roots } := by
  have planned := sound.planned
  rw [listed] at planned
  exact
    { sound with
      rooted := by
        intro node key
        obtain waits | known := sound.rooted node key
        · rw [listed, List.mem_cons] at waits
          exact waits.elim (fun same => .inr (same ▸ opened)) .inl
        · exact .inr known
      planned := (List.forall_mem_cons.mp planned).2 }

/-- Turning to the next root, when nothing is under exploration. -/
private theorem Sound.root (sound : Sound successors search) {root : Node} {roots : List Node}
    (idle : search.frames = []) (listed : search.roots = root :: roots) :
    Sound successors (if search.numbers.contains root then { search with roots }
      else ({ search with roots } : Search).openNode successors root) := by
  split
  · next known => exact sound.skip root listed (Std.TreeMap.contains_iff_mem.mp known)
  · next new =>
    have key := sound.planned root (listed ▸ List.mem_cons_self)
    have opened := sound.openNode (fun known => new (Std.TreeMap.contains_iff_mem.mpr known)) key
      fun base among => by
      rw [Search.active, idle] at among
      cases among
    exact opened.skip root listed ((mem_openNode ..).mpr (.inl rfl))

/-- Each step keeps a search sound. -/
theorem Sound.step (closed : successors.Closed) (sound : Sound successors search) {next : Search}
    (stepped : step successors search = some next) : Sound successors next := by
  rw [Search.step] at stepped
  split at stepped
  · next node target targets frames top =>
    dsimp only at stepped
    split at stepped
    · next new =>
      rw [← Option.some.inj stepped]
      exact sound.enter closed top (not_mem_of_getElem? new)
    · next number met =>
      have known := sound.pass top (Std.TreeMap.isSome_getElem?_iff_mem.mp (by rw [met]; rfl))
      rw [Search.number, Std.TreeMap.getD_eq_getD_getElem?, met, Option.getD_some] at known
      rwa [← Option.some.inj stepped]
  · next node frames top =>
    rw [← Option.some.inj stepped]
    exact sound.finish top
  · next idle =>
    split at stepped
    · cases stepped
    · next root roots listed =>
      rw [← Option.some.inj stepped]
      exact sound.root idle listed

/-! ### A whole search -/

theorem sound_start (successors : Successors) : Sound successors { roots := successors.keys } where
  sorted := .nil
  recent := by simp
  stacked := by simp
  lowered := by simp
  opened := by simp [Done]
  apart := by simp
  nested := by simp [active]
  ordered := .nil
  grounded := by simp
  inside := by simp
  rooted node key := .inl (Std.TreeMap.mem_keys.mpr key)
  planned node listed := Std.TreeMap.mem_keys.mp listed
  pending := by simp
  own := by simp
  seen := by simp
  left := by simp
  below := by simp
  met := by simp
  reported := by simp
  inhabited := by simp
  classes := by simp
  sealed := by simp [Done]
  disjoint := .nil

/-- What steps remain at least: one for each root, two for each node that is not open and one for each
successor that has not been looked at. -/
def remaining (successors : Successors) (search : Search) : Nat :=
  search.roots.length +
    ((successors.keys.filter fun node => !search.numbers.contains node).map fun node =>
      (successors.getD node ∅).size + 1).sum +
    (search.frames.map fun frame => frame.2.length + 1).sum

/-- A node that is opened has its steps under exploration. -/
theorem remaining_openNode (search : Search) (new : node ∉ search.numbers) (key : node ∈ successors) :
    remaining successors (search.openNode successors node) = remaining successors search := by
  have unopened : (successors.keys.filter fun other =>
      !(search.openNode successors node).numbers.contains other) =
        (successors.keys.filter fun other => !search.numbers.contains other).erase node := by
    rw [List.Nodup.erase_eq_filter (List.Nodup.filter _ Std.TreeMap.nodup_keys), List.filter_filter]
    refine List.filter_congr fun other _ => ?_
    simp only [openNode, Std.TreeMap.contains_insert]
    rw [Bool.not_or, beq_eq_decide, bne, beq_eq_decide]
    simp only [Std.LawfulEqCmp.compare_eq_iff_eq, @eq_comm _ node]
  have there : node ∈ successors.keys.filter fun other => !search.numbers.contains other :=
    List.mem_filter.mpr ⟨Std.TreeMap.mem_keys.mpr key, by simpa [← Std.TreeMap.contains_iff_mem] using new⟩
  rw [remaining, remaining, unopened, ← List.sum_map_erase _ there, openNode]
  simp only [List.map_cons, List.sum_cons, Std.TreeSet.length_toList]
  omega

theorem remaining_step_lt (closed : successors.Closed) (sound : Sound successors search) {next : Search}
    (stepped : step successors search = some next) :
    remaining successors next < remaining successors search := by
  rw [Search.step] at stepped
  split at stepped
  · next node target targets frames top =>
    have looked : remaining successors { search with frames := (node, targets) :: frames } <
        remaining successors search := by
      simp only [remaining, top, List.map_cons, List.sum_cons, List.length_cons]
      omega
    dsimp only at stepped
    split at stepped
    · next new =>
      have key : target ∈ successors := closed node target
        (sound.pending (node, target :: targets) (top ▸ List.mem_cons_self) target List.mem_cons_self)
      have opened := remaining_openNode { search with frames := (node, targets) :: frames }
        (not_mem_of_getElem? new) key
      rwa [← Option.some.inj stepped, opened]
    · rw [← Option.some.inj stepped]
      split <;> exact looked
  · next node frames top =>
    have left : remaining successors (({ search with frames } : Search).report node) <
        remaining successors search := by
      have same : remaining successors (({ search with frames } : Search).report node) =
          remaining successors { search with frames } := by
        rw [report]
        split <;> rfl
      rw [same]
      simp only [remaining, top, List.map_cons, List.sum_cons]
      omega
    rw [← Option.some.inj stepped]
    split <;> exact left
  · next idle =>
    split at stepped
    · cases stepped
    · next root roots listed =>
      have tried : remaining successors { search with roots } < remaining successors search := by
        simp only [remaining, listed, List.length_cons]
        omega
      rw [← Option.some.inj stepped]
      split
      · exact tried
      · next new =>
        have key := sound.planned root (listed ▸ List.mem_cons_self)
        have opened := remaining_openNode { search with roots }
          (fun known => new (Std.TreeMap.contains_iff_mem.mpr known)) key
        rwa [opened]

theorem remaining_start_lt (successors : Successors) :
    remaining successors { roots := successors.keys } < bound successors := by
  have every : (successors.keys.filter fun node => !(∅ : Std.TreeMap Node Nat).contains node) =
      successors.keys := List.filter_eq_self.mpr fun _ _ => by simp
  have total : ∀ keys : List Node,
      keys.foldr (fun node total => (successors.getD node ∅).size + 2 + total) 1 =
        keys.length + (keys.map fun node => (successors.getD node ∅).size + 1).sum + 1 := by
    intro keys
    induction keys with
    | nil => rfl
    | cons key keys ih =>
      simp only [List.foldr_cons, List.map_cons, List.sum_cons, ih, List.length_cons]
      omega
  rw [remaining, every, bound, total, List.map_nil, List.sum_nil]
  exact Nat.lt_succ_self _

/-- A search comes to its end. -/
theorem step_run_eq_none (closed : successors.Closed) : step successors (run successors) = none :=
  Loop.step_run_eq_none (remaining successors)
    (fun _ _ sound stepped => ⟨sound.step closed stepped, remaining_step_lt closed sound stepped⟩) _ _
    (sound_start successors) (remaining_start_lt successors)

/-- What has been closed at the end of a search: each class of nodes that reach each other, once. -/
structure Partitions (successors : Successors) (closed : List (List Node)) : Prop where
  inhabited : ∀ members ∈ closed, members ≠ []
  classes : ∀ members ∈ closed, ∀ node ∈ members, ∀ other,
    other ∈ members ↔ successors.Mutual node other
  disjoint : closed.Pairwise List.Disjoint
  covers : ∀ node, node ∈ successors ↔ ∃ members ∈ closed, node ∈ members

theorem partitions_run (closed : successors.Closed) : Partitions successors (run successors).closed := by
  have sound : Sound successors (run successors) :=
    Loop.run_induction (fun _ _ sound stepped => sound.step closed stepped) _ _ (sound_start successors)
  have halted := step_run_eq_none closed
  obtain ⟨idle, done⟩ : (run successors).frames = [] ∧ (run successors).roots = [] := by
    rw [step] at halted
    split at halted
    · dsimp only at halted
      split at halted <;> cases halted
    · cases halted
    · next idle =>
      split at halted
      · next done => exact ⟨idle, done⟩
      · cases halted
  refine ⟨sound.inhabited, sound.classes, sound.disjoint, fun node => ?_⟩
  have opened : node ∈ successors ↔ node ∈ (run successors).numbers := by
    refine ⟨fun key => (sound.rooted node key).resolve_left ?_, sound.inside node⟩
    rw [done]
    exact List.not_mem_nil
  rw [opened, sound.opened]
  refine or_iff_right fun listed => ?_
  obtain ⟨base, among, -⟩ := sound.grounded node listed
  rw [active, idle] at among
  cases among

end Search

end GrammarReach
