import Mathlib.Logic.Function.Basic

namespace GrammarReach

variable {κ σ τ ο : Type}

/-- Carries out calls in order and collects their answers. -/
def runCalls (carryOut : κ → σ → σ × ο) : List κ → σ → σ × List ο
  | [], state => (state, [])
  | call :: calls, state =>
    let (next, answer) := carryOut call state
    let (last, answers) := runCalls carryOut calls next
    (last, answer :: answers)

theorem runCalls_cons (carryOut : κ → σ → σ × ο) (call : κ) (calls : List κ) (state : σ) :
    runCalls carryOut (call :: calls) state =
      ((runCalls carryOut calls (carryOut call state).1).1,
        (carryOut call state).2 :: (runCalls carryOut calls (carryOut call state).1).2) := rfl

/-- Two outcomes give the same answer and leave related states. -/
structure Alike (related : σ → τ → Prop) (outcome : σ × ο) (expected : τ × ο) : Prop where
  states : related outcome.1 expected.1
  answers : outcome.2 = expected.2

/-- What holds of every single call holds of every sequence of calls. -/
theorem alike_runCalls {related : σ → τ → Prop} {carryOut : κ → σ → σ × ο} {expect : κ → τ → τ × ο}
    (step : ∀ call state spec, related state spec → Alike related (carryOut call state) (expect call spec))
    (calls : List κ) {state : σ} {spec : τ} (start : related state spec) :
    Alike related (runCalls carryOut calls state) (runCalls expect calls spec) := by
  induction calls generalizing state spec with
  | nil => exact ⟨start, rfl⟩
  | cons call calls ih =>
    obtain ⟨next, same⟩ := step call state spec start
    obtain ⟨last, rest⟩ := ih next
    exact ⟨last, congrArg₂ List.cons same rest⟩

/-- Places that are related one by one stay so when one of them is filled anew on both sides. -/
theorem related_update {α β : Type} {related : α → β → Prop} {values : Nat → α} {specs : Nat → β}
    (before : ∀ place, related (values place) (specs place)) (place : Nat) {value : α} {spec : β}
    (new : related value spec) (other : Nat) :
    related (Function.update values place value other) (Function.update specs place spec other) := by
  by_cases here : other = place
  · subst here
    simpa using new
  · simpa [here] using before other

end GrammarReach
