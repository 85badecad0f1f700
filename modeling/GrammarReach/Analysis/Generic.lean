import GrammarReach.Analysis.Basic

namespace GrammarReach.Generic

/-- The analysis of a graph whose labels are symbols of the grammar. -/
def analysis (grammar : Grammar) (graph : Multigraph) : Analysis :=
  { name := "cfl"
    grammar
    graph
    seedEdges := fun edge => [Analysis.ownSeed grammar edge]
    countSymbol? := grammar.start? }

/-- Reads the analysis of a graph; the given labels are direct. -/
def read (grammar : Grammar) (text : String) (direct : List String) : Except Error Analysis := do
  let format : EdgeListFormat := { direct }
  return analysis grammar (← format.read grammar text)

end GrammarReach.Generic
