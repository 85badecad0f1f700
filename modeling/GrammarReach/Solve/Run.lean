import GrammarReach.Solve.Generations
import GrammarReach.Solve.Stats
import GrammarReach.Solve.Step

/-!
Solving to the end: the seeds, then one edge after the other until none is left.

An edge is queued when it is stored, and once more when a closure announces it, so a worklist that
is long enough for two items per possible edge always runs dry. If it did not, the deadline stopped
the run.
-/

namespace GrammarReach

namespace Solver

/-- Adds what a node starts with: the edges of the empty productions, which are queued, and the
reflexive labels, which are only stored. -/
def seedNode (solver : Solver) (nullable reflexive : List Label) (state : SolveState) (node : Node) :
    SolveState :=
  let state := nullable.foldl
    (fun state label => solver.addAndEnqueue state ⟨node, node, label⟩) state
  reflexive.foldl
    (fun state label => { state with data := (state.data.add ⟨node, node, label⟩).1 }) state

def start (solver : Solver) (seeds : SeedGraph) : SolveState :=
  let closures := solver.accelerated.toList.foldl
    (fun (closures : Std.TreeMap Symbol Closure) symbol =>
      match Closure.ofVariant? solver.variant with
      | some closure => closures.insert symbol closure
      | none => closures) ∅
  let state := seeds.edges.foldl solver.addAndEnqueue { closures }
  seeds.nodes.toList.foldl
    (solver.seedNode (solver.grammar.nullable.toList.map .plain) seeds.reflexive) state

/-- Takes the next item from the worklist and does what it asks for, unless there is none or the
deadline stops the run. -/
def step (solver : Solver) (order : LabelOrder) (deadline : Deadline) (state : SolveState) :
    Option SolveState :=
  match state.work.pop? with
  | none => none
  | some (item, work) =>
    if deadline.stops state.iterations then none
    else some (solver.process order item { state with work, iterations := state.iterations + 1 })

/-- More than the number of items that can ever be queued. -/
def itemBound (solver : Solver) (seeds : SeedGraph) : Nat :=
  2 * seeds.edgeExtent solver.grammar solver.brackets + 1

/-- Works through the worklist until it is empty. -/
def saturate (solver : Solver) (order : LabelOrder) (seeds : SeedGraph) (deadline : Deadline) :
    Except Error SolveState :=
  let state := Loop.run (solver.step order deadline) (solver.itemBound seeds) (solver.start seeds)
  if state.work.isEmpty then .ok state else .error (deadline.timeout state.iterations)

/-- The final generation in the form of a final state. -/
def ofGenerations (generations : Generations) : SolveState :=
  { data := generations.full
    checks := generations.candidates
    iterations := generations.count }

def solveGenerations (solver : Solver) (seeds : SeedGraph) (deadline : Deadline) :
    Except Error SolveState :=
  return ofGenerations (← Generations.solve solver.grammar seeds deadline)

/-- Adds the edges that transitive reduction kept apart to the others. -/
def absorbSecondary (state : SolveState) : SolveState :=
  { state with data := (state.data.absorb state.secondary).1, secondary := .empty }

def conclude (solver : Solver) (seeds : SeedGraph) (state : SolveState) : SolveResult :=
  solver.result seeds (if solver.reduces then absorbSecondary state else state)

/-- Solves under a deadline, going through the labels at a node in the given order. -/
def solveInOrder (solver : Solver) (order : LabelOrder) (seeds : SeedGraph) (deadline : Deadline) :
    Except Error SolveResult := do
  let state ←
    if solver.variant = .batchSemiNaive then solver.solveGenerations seeds deadline
    else solver.saturate order seeds deadline
  return solver.conclude seeds state

def solve (solver : Solver) (seeds : SeedGraph) (deadline : Deadline) : Except Error SolveResult :=
  solver.solveInOrder .ascending seeds deadline

end Solver

end GrammarReach
