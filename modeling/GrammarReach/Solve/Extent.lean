import GrammarReach.Grammar.Derivation
import GrammarReach.SeedGraph

/-!
How many edges a solve can come to store.

Solving brings up no new nodes, no symbol besides those of the seeds and the left-hand sides of the
productions, and no index besides zero and those of the seeds. The number of edges of these parts
bounds every solving loop.
-/

namespace GrammarReach

namespace SeedGraph

/-- At least the number of different nodes that occur in the seeds. -/
def nodeExtent (seeds : SeedGraph) : Nat := seeds.nodes.size + 2 * seeds.edges.length

/-- At least the number of different symbols that a stored edge can bear. -/
def symbolExtent (seeds : SeedGraph) (grammar : Grammar) (brackets : List BracketRule) : Nat :=
  seeds.edges.length + seeds.reflexive.length + grammar.nullable.size + grammar.unary.length +
    grammar.binary.length + brackets.length

/-- At least the number of different indices that a stored edge can bear. -/
def indexExtent (seeds : SeedGraph) : Nat := 1 + seeds.edges.length + seeds.reflexive.length

/-- At least the number of different edges that a solve can store. -/
def edgeExtent (seeds : SeedGraph) (grammar : Grammar) (brackets : List BracketRule) : Nat :=
  seeds.nodeExtent * seeds.nodeExtent * seeds.symbolExtent grammar brackets * seeds.indexExtent

end SeedGraph

end GrammarReach
