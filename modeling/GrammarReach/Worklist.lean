import GrammarReach.Label
import GrammarReach.Queue

namespace GrammarReach

/-- An edge to look at. A primary item still has to pass through the closure of its symbol; a
secondary one announces a pair that a closure holds already. -/
structure WorkItem where
  edge : Edge
  primary : Bool
deriving DecidableEq

/-- Two queues of items and the number of items ever added to either. -/
structure Worklist where
  main : Queue WorkItem := .empty
  deferred : Queue WorkItem := .empty
  totalPushed : Nat := 0

namespace Worklist

def empty : Worklist := {}

/-- Adds an item behind everything in the main queue. -/
def push (work : Worklist) (item : WorkItem) : Worklist :=
  { work with main := work.main.push item, totalPushed := work.totalPushed + 1 }

/-- Adds an item that waits until the main queue has run dry. -/
def defer (work : Worklist) (item : WorkItem) : Worklist :=
  { work with deferred := work.deferred.push item, totalPushed := work.totalPushed + 1 }

/-- Takes the next item: from the main queue as long as it holds one. -/
def pop? (work : Worklist) : Option (WorkItem × Worklist) :=
  match work.main.pop? with
  | some (item, rest) => some (item, { work with main := rest })
  | none => work.deferred.pop?.map fun (item, rest) => (item, { work with deferred := rest })

/-- The items in the order in which they would leave if none were added. -/
def toList (work : Worklist) : List WorkItem := work.main.toList ++ work.deferred.toList

def size (work : Worklist) : Nat := work.main.size + work.deferred.size

def isEmpty (work : Worklist) : Bool := work.main.isEmpty && work.deferred.isEmpty

end Worklist

end GrammarReach
