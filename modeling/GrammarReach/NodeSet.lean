import GrammarReach.Label

/-!
Sets of nodes that are mostly grown.

A set keeps an ascending list and a short buffer of recent insertions that the list lacks. The
buffer is folded into the list when it reaches its limit and before a bulk union. `toList` is the
view of a set, blind to how the members are laid out.
-/

namespace GrammarReach

/-- Puts a node into a sorted list, before the first node that is not below it. -/
def insertSorted (node : Node) : List Node → List Node
  | [] => [node]
  | head :: rest => if node ≤ head then node :: head :: rest else head :: insertSorted node rest

/-- Sorts a list. What is listed twice stays listed twice. -/
def sortNodes (nodes : List Node) : List Node := nodes.foldr insertSorted []

/-- Drops from a list what is listed again right behind. -/
def dropRepeats : List Node → List Node
  | [] => []
  | node :: rest => if rest.head? = some node then dropRepeats rest else node :: dropRepeats rest

/-- The members of a list in ascending order, each once. -/
def ascending (nodes : List Node) : List Node := dropRepeats (sortNodes nodes)

/-- Merges one more node into a sorted list; `rest` merges the nodes that follow it. -/
def mergeNode (node : Node) (rest : List Node → List Node) : List Node → List Node
  | [] => node :: rest []
  | head :: tail =>
    if node ≤ head then node :: rest (head :: tail) else head :: mergeNode node rest tail

/-- Merges two sorted lists. What both of them list is listed twice. -/
def mergeSorted : List Node → List Node → List Node
  | [], others => others
  | node :: nodes, others => mergeNode node (mergeSorted nodes) others

/-- An ascending union, and the part of it that only its second operand brought. -/
structure AscendingUnion where
  all : List Node
  fresh : List Node

/-- Weaves one more node into a union: `rest` unites the nodes above `node` with a list. -/
def AscendingUnion.weave (node : Node) (rest : List Node → AscendingUnion) :
    List Node → AscendingUnion
  | [] => { rest [] with all := node :: (rest []).all }
  | head :: tail =>
    if node < head then
      let union := rest (head :: tail)
      { union with all := node :: union.all }
    else if head < node then
      let union := weave node rest tail
      ⟨head :: union.all, head :: union.fresh⟩
    else
      let union := rest tail
      { union with all := node :: union.all }

/-- Unites two ascending lists in one pass and tells which members only the second one has. -/
def uniteAscending : List Node → List Node → AscendingUnion
  | [], others => ⟨others, others⟩
  | node :: nodes, others => AscendingUnion.weave node (uniteAscending nodes) others

/-- A set of nodes: an ascending list, and a buffer of recent members that the list lacks. -/
structure NodeSet where
  elements : List Node := []
  pending : List Node := []

namespace NodeSet

/-- The number of buffered members at which the buffer is folded into the list. -/
def pendingLimit : Nat := 16

def empty : NodeSet := {}

def singleton (node : Node) : NodeSet := { elements := [node] }

/-- The set of the members of a list, in any order and multiplicity. -/
def ofList (nodes : List Node) : NodeSet := { elements := ascending nodes }

/-- The members in ascending order: the buffer is sorted and merged with the list. -/
def toList (set : NodeSet) : List Node := mergeSorted (sortNodes set.pending) set.elements

/-- Sorts the buffer and folds it into the list. -/
def consolidate (set : NodeSet) : NodeSet :=
  { elements := (uniteAscending set.elements (sortNodes set.pending)).all }

/-- Membership, in the list or in the buffer. -/
def contains (set : NodeSet) (node : Node) : Bool :=
  set.pending.contains node || set.elements.contains node

def size (set : NodeSet) : Nat := set.elements.length + set.pending.length

def isEmpty (set : NodeSet) : Bool := set.elements.isEmpty && set.pending.isEmpty

/-- Adds a node; the flag tells whether it was absent. -/
def insert (set : NodeSet) (node : Node) : NodeSet × Bool :=
  if set.contains node then (set, false)
  else
    let grown := { set with pending := node :: set.pending }
    (if pendingLimit ≤ grown.pending.length then grown.consolidate else grown, true)

/-- Adds every member of a list, in order. -/
def insertAll (set : NodeSet) (nodes : List Node) : NodeSet :=
  nodes.foldl (fun set node => (set.insert node).1) set

/-- Removes a node; the flag tells whether it was present. -/
def remove (set : NodeSet) (node : Node) : NodeSet × Bool :=
  if set.pending.contains node then ({ set with pending := set.pending.erase node }, true)
  else if set.elements.contains node then ({ set with elements := set.elements.erase node }, true)
  else (set, false)

/-- Drops every member, from both parts. -/
def clear (set : NodeSet) : NodeSet := { set with elements := [], pending := [] }

def first? (set : NodeSet) : Option Node :=
  match set.elements.head?, set.pending.min? with
  | some listed, some buffered => some (min listed buffered)
  | some listed, none => some listed
  | none, buffered => buffered

/-- Adds every member of `other`; the second set holds exactly the members that were absent. -/
def unionNew (set other : NodeSet) : NodeSet × NodeSet :=
  if other.isEmpty then (set, empty)
  else
    let union := uniteAscending set.consolidate.elements other.toList
    ({ elements := union.all }, { elements := union.fresh })

def union (set other : NodeSet) : NodeSet := (set.unionNew other).1

/-- The members of `set` that `other` lacks. -/
def difference (set other : NodeSet) : NodeSet :=
  { elements := set.toList.filter fun node => !other.contains node }

/-- Two sets are the same when they list the same members, however these are laid out. -/
def same (set other : NodeSet) : Bool :=
  set.size == other.size && set.toList == other.toList

/-- The members between braces, ascending, with a comma and a space between neighbours. -/
def render (set : NodeSet) : String :=
  "\x7b" ++ ", ".intercalate (set.toList.map toString) ++ "\x7d"

end NodeSet

end GrammarReach
