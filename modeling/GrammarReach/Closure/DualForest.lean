import GrammarReach.Closure.Arena

/-!
A transitive closure that grows edge by edge, held as two forests.

The ancestor tree of a node has every node that reaches it as a member, the descendant tree every
node that it reaches; that a node reaches itself goes without saying. Inserting an edge walks the
descendant tree of its end, and for each node on the way the ancestor tree of its start, and stops
wherever the pair at hand is known.
-/

namespace GrammarReach

/-- The two forests of a closure, and the number of membership checks made so far. -/
structure DualForest where
  ancestors : Arena := .empty
  descendants : Arena := .empty
  checks : Nat := 0

/-- A closure that is taking in an edge, and the pairs that have become reachable, the latest
first. -/
structure DualGrowth where
  forest : DualForest
  found : List (Node × Node) := []

namespace DualGrowth

def tick (growth : DualGrowth) : DualGrowth :=
  { growth with forest := { growth.forest with checks := growth.forest.checks + 1 } }

/-- The place of `member` in the tree of `root`, or the root itself if it has none there. -/
def placeOrRoot (arena : Arena) (root member : Node) : Arena × Slot :=
  match arena.place? root member with
  | some slot => (arena, slot)
  | none => arena.root root

/-- Enters `member` into the tree of `root`, below `parent`. The flag tells whether it was new. -/
def enter (arena : Arena) (root member parent : Node) : Arena × Bool :=
  match arena.plant root member with
  | (arena, none) => (arena, false)
  | (arena, some slot) =>
    let (arena, place) := placeOrRoot arena root parent
    (arena.attach place slot, true)

/-- Notes that `source` reaches `target`: below `via` in the ancestor tree of the target, and below
`from` in the descendant tree of the source. -/
def record (via source origin target : Node) (growth : DualGrowth) : DualGrowth :=
  let growth := growth.tick
  let (ancestors, fresh) := enter growth.forest.ancestors target source via
  if fresh then
    let (descendants, _) := enter growth.forest.descendants source target origin
    { forest := { growth.forest with ancestors, descendants }
      found := (source, target) :: growth.found }
  else { growth with forest := { growth.forest with ancestors } }

/-- Pairs everything in an ancestor tree from a slot downwards with one target. A guarded slot is
passed over when its pair is known. -/
def pairAncestors (origin target : Node) :
    Nat → Node → Slot → (guarded : Bool) → DualGrowth → DualGrowth
  | 0, _, _, _, growth => growth
  | depth + 1, via, place, guarded, growth =>
    let source := growth.forest.ancestors.memberAt place
    let growth := growth.tick
    if guarded && growth.forest.ancestors.holds target source then growth
    else
      let growth := growth.record via source origin target
      (growth.forest.ancestors.below place).foldl
        (fun growth next => pairAncestors origin target depth source next true growth) growth

/-- Pairs everything in an ancestor tree from a slot downwards with everything in a descendant tree
from a slot downwards. A guarded slot is passed over when its pair with the first one is known. -/
def pairDescendants (height : Nat) (via : Node) (place : Slot) :
    Nat → Node → Slot → (guarded : Bool) → DualGrowth → DualGrowth
  | 0, _, _, _, growth => growth
  | depth + 1, origin, target, guarded, growth =>
    let sourceNode := growth.forest.ancestors.memberAt place
    let targetNode := growth.forest.descendants.memberAt target
    let growth := growth.tick
    if guarded && growth.forest.descendants.holds sourceNode targetNode then growth
    else
      let further := growth.forest.descendants.below target
      let growth := growth |> pairAncestors origin targetNode height via place false
      further.foldl
        (fun growth next => pairDescendants height via place depth targetNode next true growth) growth

end DualGrowth

namespace DualForest

def empty : DualForest := {}

/-- More than the length of any path in a tree: the members along a path differ. -/
def height (forest : DualForest) : Nat :=
  forest.ancestors.places.size + forest.descendants.places.size + 1

/-- Takes in an edge and tells the pairs that have become reachable, in the order of discovery. -/
def insert (forest : DualForest) (src dst : Node) : DualForest × List (Node × Node) :=
  if forest.descendants.holds src dst then (forest, [])
  else
    let (ancestors, place) := forest.ancestors.root src
    let (descendants, target) := forest.descendants.root dst
    let forest := { forest with ancestors, descendants }
    let growth := DualGrowth.pairDescendants forest.height dst place forest.height src target false
      { forest }
    (growth.forest, growth.found.reverse)

/-- Whether a node reaches another, which counts as a check. -/
def reaches (forest : DualForest) (src dst : Node) : DualForest × Bool :=
  ({ forest with checks := forest.checks + 1 }, forest.descendants.holds src dst)

end DualForest

end GrammarReach
