import GrammarReach.Label

/-!
Trees that share one array of slots.

Every node may be the root of a tree. A member of a tree sits in one slot, which is found through the
member and the root, and belongs to no other tree. A node always counts as a member of its own tree,
whether its slot has been made or not.
-/

namespace GrammarReach

/-- The position of a tree node in the array. -/
abbrev Slot := Nat

/-- A tree node: whom it stands for, and the slots below it, the latest first. -/
structure TreeNode where
  member : Node
  below : List Slot := []

/-- Trees in one array. -/
structure Arena where
  slots : Array TreeNode := #[]
  /-- The slot of a member in the tree of a root: by member, then by root. -/
  places : Std.TreeMap Node (Std.TreeMap Node Slot) := ∅
  /-- The number of members of all trees that are not the root. -/
  pairs : Nat := 0

namespace Arena

def empty : Arena := {}

/-- The slot of a member in the tree of a root. -/
def place? (arena : Arena) (root member : Node) : Option Slot :=
  arena.places[member]?.bind fun row => row[root]?

def holds (arena : Arena) (root member : Node) : Bool :=
  root == member || (arena.place? root member).isSome

/-- Whom a slot stands for; a slot that was never handed out stands for node zero. -/
def memberAt (arena : Arena) (slot : Slot) : Node := (arena.slots[slot]?).elim 0 (·.member)

/-- The slots below a slot, the latest first. -/
def latestBelow (arena : Arena) (slot : Slot) : List Slot := (arena.slots[slot]?).elim [] (·.below)

/-- The slots below a slot, in the order in which they were put there. -/
def below (arena : Arena) (slot : Slot) : List Slot := (arena.latestBelow slot).reverse

/-- Makes a slot for a member in the tree of a root. -/
def allot (arena : Arena) (root member : Node) : Arena × Slot :=
  let slot := arena.slots.size
  ({ arena with
      slots := arena.slots.push { member }
      places := arena.places.insert member ((arena.places.getD member ∅).insert root slot) }, slot)

/-- The slot of a root in its own tree, made on first use. -/
def root (arena : Arena) (root : Node) : Arena × Slot :=
  match arena.place? root root with
  | some slot => (arena, slot)
  | none => arena.allot root root

/-- Adds a member to the tree of a root, without a place below any other slot yet. No slot is
answered when the tree has the member already. -/
def plant (arena : Arena) (root member : Node) : Arena × Option Slot :=
  let (arena, _) := arena.root root
  if arena.holds root member then (arena, none)
  else
    let (arena, slot) := arena.allot root member
    ({ arena with pairs := arena.pairs + 1 }, some slot)

def attach (arena : Arena) (parent child : Slot) : Arena :=
  { arena with
    slots := arena.slots.modify parent fun node => { node with below := child :: node.below } }

/-- The roots of the trees that have a member, ascending, without the member itself. -/
def holders (arena : Arena) (member : Node) : List Node :=
  (arena.places.getD member ∅).keys.filter (· != member)

/-- Visits slots in order, and everything below a slot right after it where the visit asks for it,
the latest first. The first argument bounds the depth. -/
def visitSlots {σ : Type} (arena : Arena) (visit : σ → Node → σ × Bool) : Nat → List Slot → σ → σ
  | 0, _, state => state
  | depth + 1, slots, state =>
    slots.foldl
      (fun state slot =>
        let (state, deeper) := visit state (arena.memberAt slot)
        if deeper then visitSlots arena visit depth (arena.latestBelow slot) state else state)
      state

/-- Visits the members of the tree of a root, the root apart. What lies below a member is visited
only where its visit asks for it. No path is longer than there are slots. -/
def walk {σ : Type} (arena : Arena) (root : Node) (visit : σ → Node → σ × Bool) (state : σ) : σ :=
  match arena.place? root root with
  | none => state
  | some slot => arena.visitSlots visit arena.slots.size (arena.latestBelow slot) state

/-- The members of the tree of a root, ascending, without the root. -/
def members (arena : Arena) (root : Node) : List Node :=
  (arena.walk root (fun (found : Std.TreeSet Node) member => (found.insert member, true)) ∅).toList

end Arena

end GrammarReach
