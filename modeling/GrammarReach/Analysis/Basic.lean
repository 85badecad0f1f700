import GrammarReach.Graph.Text
import GrammarReach.Simplify.Run
import GrammarReach.Solve.Run

namespace GrammarReach

/-- One analysis of one graph. -/
structure Analysis where
  name : String
  grammar : Grammar
  graph : Multigraph
  /-- The kinds of edges that come as bracket pairs. -/
  profile : BracketProfile := {}
  brackets : List BracketRule := []
  /-- The labels that every node bears on itself. -/
  reflexive : List Label := []
  /-- The seed edges that an edge of the graph stands for. -/
  seedEdges : Edge → List Edge
  /-- The symbol whose pairs are the result. -/
  countSymbol? : Option Symbol
  /-- The label of the lines that mark a source, in the text form of the graph. -/
  marker? : Option String := none

namespace Analysis

/-- What the solver starts from: the live nodes, then the edges in order. -/
def seeds (analysis : Analysis) : SeedGraph :=
  let start : SeedGraph := { reflexive := analysis.reflexive }
  let seeds := analysis.graph.nodes.foldl SeedGraph.addNode start
  (analysis.graph.edges.flatMap fun (_, edge) => analysis.seedEdges edge.toEdge).foldl
    SeedGraph.addEdge seeds

def graphText (analysis : Analysis) : String :=
  analysis.graph.toText analysis.grammar analysis.marker?

/-- The seed edge of an edge whose kind is a symbol of the grammar: the edge itself, without the index
if the symbol bears none. -/
def ownSeed (grammar : Grammar) (edge : Edge) : Edge :=
  { edge with label := grammar.label edge.label.symbol edge.label.index }

end Analysis

end GrammarReach
