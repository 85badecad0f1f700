import GrammarReach.Closure.Arena

/-!
A transitive closure that grows edge by edge, held as one forest.

The tree of a node has every node that it reaches as a member. An edge is taken in by grafting the
tree of its end below its start, in every tree that has the start as a member.
-/

namespace GrammarReach

/-- The forest of a closure, and the number of membership checks made so far. -/
structure GraftForest where
  trees : Arena := .empty
  checks : Nat := 0

/-- A closure that is taking in an edge, and the pairs that have become reachable, the latest
first. -/
structure GraftGrowth where
  forest : GraftForest
  found : List (Node × Node) := []

namespace GraftGrowth

/-- Copies what lies below a slot, the slot itself included, into the tree of `root` below `parent`.
What the tree has already is passed over, with everything below it. -/
def graft (root : Node) : Nat → Slot → Slot → GraftGrowth → GraftGrowth
  | 0, _, _, growth => growth
  | depth + 1, parent, subtree, growth =>
    let member := growth.forest.trees.memberAt subtree
    let checks := growth.forest.checks + 1
    match growth.forest.trees.plant root member with
    | (trees, none) => { growth with forest := { trees, checks } }
    | (trees, some copy) =>
      let trees := trees.attach parent copy
      (trees.below subtree).foldl
        (fun growth next => graft root depth copy next growth)
        { forest := { trees, checks }, found := (root, member) :: growth.found }

/-- Grafts the tree whose root sits in a slot below `src`, in the tree of `root`. -/
def graftInto (src : Node) (subtree : Slot) (growth : GraftGrowth) (root : Node) : GraftGrowth :=
  let height := growth.forest.trees.places.size + 1
  if root = src then
    let (trees, place) := growth.forest.trees.root src
    graft root height place subtree { growth with forest := { growth.forest with trees } }
  else
    match growth.forest.trees.place? root src with
    | none => growth
    | some place => graft root height place subtree growth

end GraftGrowth

namespace GraftForest

def empty : GraftForest := {}

/-- Takes in an edge and tells the pairs that have become reachable, in the order of discovery. -/
def addArc (forest : GraftForest) (src dst : Node) : GraftForest × List (Node × Node) :=
  let forest := { forest with checks := forest.checks + 1 }
  if forest.trees.holds src dst then (forest, [])
  else
    let (trees, subtree) := forest.trees.root dst
    let roots := trees.holders src ++ [src]
    let growth := roots.foldl (GraftGrowth.graftInto src subtree)
      { forest := { forest with trees } }
    (growth.forest, growth.found.reverse)

/-- Takes in an edge; one from a node to itself says nothing and is not even checked. -/
def insert (forest : GraftForest) (src dst : Node) : GraftForest × List (Node × Node) :=
  if src = dst then (forest, []) else forest.addArc src dst

/-- Whether a node reaches another, which counts as a check. -/
def reaches (forest : GraftForest) (src dst : Node) : GraftForest × Bool :=
  ({ forest with checks := forest.checks + 1 }, forest.trees.holds src dst)

end GraftForest

end GrammarReach
