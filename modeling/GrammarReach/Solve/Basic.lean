import GrammarReach.Closure.Basic
import GrammarReach.Dataset
import GrammarReach.Solve.Extent
import GrammarReach.Worklist

/-!
What the worklist solver is set up with and what it works on.

A strategy that uses closures hands each transitive symbol without indices to a closure of its own
and takes the production of the symbol from two of itself out of the grammar.
-/

namespace GrammarReach

structure Solver where
  variant : Variant
  /-- The grammar, without the productions that closures stand in for. -/
  grammar : Grammar
  /-- The symbols that a closure stands in for. -/
  accelerated : Std.TreeSet Symbol := ∅
  brackets : List BracketRule := []
  /-- The symbol whose pairs are reported. -/
  countSymbol? : Option Symbol := none

structure SolveState where
  data : Dataset := .empty
  /-- The edges that a transitive symbol derived from itself, under transitive reduction. -/
  secondary : Dataset := .empty
  work : Worklist := .empty
  closures : Std.TreeMap Symbol Closure := ∅
  /-- The number of edges that were looked up in order to be added. -/
  checks : Nat := 0
  /-- The number of items taken from the worklist. -/
  iterations : Nat := 0

/-- The end of an edge at which its neighbours are listed. -/
inductive Side where
  | outgoing
  | incoming
deriving DecidableEq

/-- An order in which the labels at a node are gone through. It may depend on everything that the
solve has come to. -/
structure LabelOrder where
  arrange : SolveState → Side → Node → List Label → List Label
  perm : ∀ state side node labels, (arrange state side node labels).Perm labels

namespace LabelOrder

/-- The ascending order, in which a dataset lists the labels. -/
def ascending : LabelOrder := ⟨fun _ _ _ labels => labels, fun _ _ _ labels => .refl labels⟩

instance : Inhabited LabelOrder := ⟨ascending⟩

end LabelOrder

namespace Solver

/-- Whether unary productions lead from a symbol back to itself, with the names of such symbols. -/
def cycleFault? (grammar : Grammar) : Option ParseFault :=
  match grammar.unaryCycles with
  | [] => none
  | cycles => some (.unaryCycles (cycles.map (·.map grammar.nameOrFault)))

/-- The symbols that a strategy hands to closures. -/
def closureSymbols (variant : Variant) (grammar : Grammar) : List Symbol :=
  if variant.usesClosure then grammar.transitive.toList.filter (!grammar.isVariant ·) else []

/-- A solver of the configured strategy. A strict configuration refuses a grammar with a cycle of
unary productions; the count symbol has to be known. -/
def prepare (grammar : Grammar) (config : Config) : Except Error Solver := do
  if config.strictGrammar then
    if let some fault := cycleFault? grammar then throw (.parse 0 fault)
  let countSymbol? ← match config.countSymbol with
    | some name => some <$> grammar.lookup name
    | none => pure grammar.start?
  let accelerated := closureSymbols config.variant grammar
  return {
    variant := config.variant
    grammar := accelerated.foldl (fun grammar symbol => (grammar.removeSelfRule symbol).1) grammar
    accelerated := Std.TreeSet.ofList accelerated
    countSymbol? }

/-- The same solver with shortcuts for bracket pairs. Only strategies that use closures follow
them. -/
def withBrackets (solver : Solver) (brackets : List BracketRule) : Solver := { solver with brackets }

/-- The same solver with another symbol to report on. -/
def withCountSymbol (solver : Solver) (countSymbol? : Option Symbol) : Solver :=
  { solver with countSymbol? }

/-- Whether a closure stands in for a symbol. -/
def accelerates (solver : Solver) (symbol : Symbol) : Bool := solver.accelerated.contains symbol

/-- Whether the primary edges of a symbol wait until nothing else is left to do. -/
def defers (solver : Solver) (symbol : Symbol) : Bool :=
  solver.variant == .hierarchicalPocr && solver.accelerates symbol

/-- Whether the symbol lies inside a bracket shortcut that every edge of it fires. With a closure for
the symbol, the pairs that the closure reports fire the shortcut instead. -/
def firesBrackets (solver : Solver) (symbol : Symbol) : Bool :=
  solver.variant.usesClosure && !solver.accelerates symbol &&
    solver.brackets.any (·.inner == symbol)

/-- Whether the strategy keeps what a transitive symbol derives from itself apart. -/
def reduces (solver : Solver) : Bool := solver.variant == .transitiveReduction

/-- Whether a production derives a transitive symbol from two of itself, under transitive
reduction. -/
def isReduced (solver : Solver) (left right derived : Label) : Bool :=
  solver.reduces && derived.symbol == left.symbol && derived.symbol == right.symbol &&
    solver.grammar.isTransitive derived.symbol

end Solver

end GrammarReach
