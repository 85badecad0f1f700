/-!
Repeating a step a bounded number of times.

The worklist algorithms of this library are a state, a step that answers `none` when nothing is left
to do, and a bound on the number of steps computed from the input. Where the bound is large enough,
the state at the end is one at which the step answers `none`.
-/

namespace GrammarReach.Loop

variable {σ : Type}

/-- Takes steps from a state until none is left, but no more than the given number. -/
def run (step : σ → Option σ) : Nat → σ → σ
  | 0, state => state
  | bound + 1, state =>
    match step state with
    | none => state
    | some next => run step bound next

theorem run_of_step_eq_none {step : σ → Option σ} {state : σ} (halted : step state = none) :
    (bound : Nat) → run step bound state = state
  | 0 => rfl
  | _ + 1 => by simp [run, halted]

theorem run_of_step_eq_some {step : σ → Option σ} {state next : σ} (stepped : step state = some next)
    (bound : Nat) : run step (bound + 1) state = run step bound next := by
  rw [run, stepped]

/-- Two runs from one state end alike if both halt, whatever their bounds. -/
theorem run_eq_of_halted {step : σ → Option σ} :
    ∀ (bound other : Nat) (state : σ), step (run step bound state) = none →
      step (run step other state) = none → run step bound state = run step other state
  | 0, other, _, halted, _ => (run_of_step_eq_none halted other).symm
  | bound + 1, 0, _, _, halted => run_of_step_eq_none halted (bound + 1)
  | bound + 1, other + 1, state, first, second => by
    cases stepped : step state with
    | none => rw [run_of_step_eq_none stepped, run_of_step_eq_none stepped]
    | some next =>
      rw [run_of_step_eq_some stepped] at first second
      rw [run_of_step_eq_some stepped, run_of_step_eq_some stepped]
      exact run_eq_of_halted bound other next first second

/-- What each step keeps, the run keeps. -/
theorem run_induction {step : σ → Option σ} {motive : σ → Prop}
    (keep : ∀ state next, motive state → step state = some next → motive next) :
    ∀ (bound : Nat) (state : σ), motive state → motive (run step bound state)
  | 0, _, start => start
  | bound + 1, state, start => by
    unfold run
    cases stepped : step state with
    | none => exact start
    | some next => exact run_induction keep bound next (keep state next start stepped)

/-- A run halts within its bound when every step lowers a measure that starts below the bound. -/
theorem step_run_eq_none {step : σ → Option σ} {motive : σ → Prop} (measure : σ → Nat)
    (keep : ∀ state next, motive state → step state = some next →
      motive next ∧ measure next < measure state) :
    ∀ (bound : Nat) (state : σ), motive state → measure state < bound →
      step (run step bound state) = none
  | 0, _, _, below => absurd below (Nat.not_lt_zero _)
  | bound + 1, state, start, below => by
    unfold run
    cases stepped : step state with
    | none => exact stepped
    | some next =>
      have ⟨kept, lower⟩ := keep state next start stepped
      exact step_run_eq_none measure keep bound next kept
        (Nat.lt_of_lt_of_le lower (Nat.le_of_lt_succ below))

end GrammarReach.Loop
