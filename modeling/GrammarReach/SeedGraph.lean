import GrammarReach.Label

namespace GrammarReach

/-- The input of a solve. Every node receives the edges of the empty productions; the reflexive
labels are stored on every node as well, but they are never queued. -/
structure SeedGraph where
  nodes : Std.TreeSet Node := ∅
  edges : List Edge := []
  reflexive : List Label := []

namespace SeedGraph

def addNode (seeds : SeedGraph) (node : Node) : SeedGraph :=
  { seeds with nodes := seeds.nodes.insert node }

/-- Adds an edge and both its ends. -/
def addEdge (seeds : SeedGraph) (edge : Edge) : SeedGraph :=
  { seeds with
    nodes := (seeds.nodes.insert edge.src).insert edge.dst
    edges := seeds.edges ++ [edge] }

/-- Adds a label that every node bears on itself. -/
def addReflexive (seeds : SeedGraph) (label : Label) : SeedGraph :=
  { seeds with reflexive := seeds.reflexive ++ [label] }

/-- The seeds made of a list of edges. -/
def ofEdges (edges : List Edge) : SeedGraph := edges.foldl addEdge {}

def nodeCount (seeds : SeedGraph) : Nat := seeds.nodes.size

end SeedGraph

end GrammarReach
