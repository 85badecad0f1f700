import GrammarReach.Solve.Run

/-!
Solving while a clock runs.

The clock of a deadline is a function of the progress made, which a real clock is not. Here the work
is done in rounds, and the clock is read before each of them: a round is one generation, or as many
items as lie between two looks at the clock.
-/

namespace GrammarReach

variable {m : Type → Type} [Monad m]

/-- Goes on in rounds until the work is finished, no more of them than the given number. It fails when
work is left and the clock has passed the limit, both in nanoseconds. -/
def Deadline.watch {σ : Type} (now : m Nat) (limit? : Option Nat) (finished : σ → Bool)
    (round : σ → σ) : Nat → σ → m (Except Error σ)
  | 0, state => return .ok state
  | rounds + 1, state =>
    if finished state then return .ok state
    else do
      let passed ← now
      match ({ limit?, clock := fun _ => passed } : Deadline).check 0 with
      | .error error => return .error error
      | .ok () => watch now limit? finished round rounds (round state)

namespace Solver

/-- Takes items from the worklist up to the next look at the clock. -/
def round (solver : Solver) (state : SolveState) : SolveState :=
  Loop.run (solver.step .ascending .unlimited) Deadline.interval state

/-- Solves while a clock runs that started from zero; the limit is in nanoseconds. -/
def solveWatched (solver : Solver) (seeds : SeedGraph) (now : m Nat) (limit? : Option Nat) :
    m (Except Error SolveResult) := do
  if solver.variant = .batchSemiNaive then
    let generations ← Deadline.watch now limit? (·.delta.isEmpty)
      (Generations.advance solver.grammar) (Generations.bound solver.grammar seeds)
      (Generations.start solver.grammar seeds)
    return generations.map (solver.conclude seeds ∘ ofGenerations)
  else
    let state ← Deadline.watch now limit? (·.work.isEmpty) solver.round (solver.itemBound seeds)
      (solver.start seeds)
    return state.map (solver.conclude seeds)

end Solver

end GrammarReach
