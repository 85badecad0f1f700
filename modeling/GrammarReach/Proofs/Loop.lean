import Mathlib.Logic.Relation
import GrammarReach.Loop

namespace GrammarReach.Loop

open Relation (ReflTransGen)

variable {σ τ : Type} {step : σ → Option σ} {state middle final : σ}

def Leads (step : σ → Option σ) : σ → σ → Prop :=
  ReflTransGen fun state next => step state = some next

/-- Steps lead to a state at which none is left. -/
structure Ends (step : σ → Option σ) (state final : σ) : Prop where
  leads : Leads step state final
  halted : step final = none

theorem Leads.head (stepped : step state = some middle) (leads : Leads step middle final) :
    Leads step state final :=
  ReflTransGen.head stepped leads

theorem Leads.trans (early : Leads step state middle) (late : Leads step middle final) :
    Leads step state final :=
  ReflTransGen.trans early late

/-- What each step keeps, any number of them keeps. -/
theorem Leads.keeps {motive : σ → Prop} (leads : Leads step state final)
    (keep : ∀ state next, motive state → step state = some next → motive next)
    (start : motive state) : motive final := by
  induction leads with
  | refl => exact start
  | tail _ stepped ih => exact keep _ _ ih stepped

theorem leads_run (step : σ → Option σ) (bound : Nat) (state : σ) :
    Leads step state (run step bound state) := by
  induction bound generalizing state with
  | zero => exact .refl
  | succ bound ih =>
    unfold run
    cases stepped : step state with
    | none => exact .refl
    | some next => exact .head stepped (ih next)

/-- The last step of a run that may take one more. -/
theorem run_succ (step : σ → Option σ) (bound : Nat) (state : σ) :
    run step (bound + 1) state = (step (run step bound state)).getD (run step bound state) := by
  induction bound generalizing state with
  | zero => cases stepped : step state <;> simp [run, stepped]
  | succ bound ih =>
    cases stepped : step state with
    | none => simp [run, stepped]
    | some next =>
      have first : ∀ bound, run step (bound + 1) state = run step bound next := fun bound => by
        simp [run, stepped]
      rw [first, first, ih]

/-- A loop whose states are seen as those of another one, step by step, gives what is seen as its
result. -/
theorem run_map {step' : τ → Option τ} (view : τ → σ)
    (follows : ∀ state, step (view state) = (step' state).map view) (bound : Nat) (state : τ) :
    run step bound (view state) = view (run step' bound state) := by
  induction bound generalizing state with
  | zero => rfl
  | succ bound ih =>
    rw [run, run, follows]
    cases step' state with
    | none => rfl
    | some next => exact ih next

/-- A loop that may stop early but has not done so gives what the whole loop gives. -/
theorem run_of_halted {whole : σ → Option σ}
    (part : ∀ state next, step state = some next → whole state = some next) (bound : Nat) (state : σ)
    (halted : whole (run step bound state) = none) :
    run whole bound state = run step bound state := by
  induction bound generalizing state with
  | zero => rfl
  | succ bound ih =>
    cases stepped : step state with
    | none =>
      have stays : run step (bound + 1) state = state := run_of_step_eq_none stepped _
      rw [stays] at halted ⊢
      exact run_of_step_eq_none halted _
    | some next =>
      have ran : run step (bound + 1) state = run step bound next := by simp [run, stepped]
      rw [ran] at halted ⊢
      rw [← ih next halted, run, part state next stepped]

variable {α : Type} {start : σ} {stores : σ → α → Prop} {allowed : α → Prop}

/-- Wherever steps lead, everything stored there is allowed, and nothing stored is lost on the way. -/
structure Fills (step : σ → Option σ) (start : σ) (stores : σ → α → Prop) (allowed : α → Prop) :
    Prop where
  inside : ∀ state, Leads step start state → ∀ item, stores state item → allowed item
  grows : ∀ state later, Leads step start state → Leads step state later →
    ∀ item, stores state item → stores later item

/-- A loop fills up with what is allowed if its steps keep something under which all that is stored is
allowed and a step loses none of it. -/
theorem Fills.of_invariant {motive : σ → Prop} (initial : motive start)
    (permits : ∀ state, motive state → ∀ item, stores state item → allowed item)
    (keep : ∀ state next, motive state → step state = some next →
      motive next ∧ ∀ item, stores state item → stores next item) :
    Fills step start stores allowed := by
  have reached : ∀ state, Leads step start state → motive state := by
    intro state leads
    apply leads.keeps _ initial
    intro state next kept stepped
    exact (keep state next kept stepped).1
  constructor
  · intro state leads item stored
    exact permits state (reached state leads) item stored
  · intro state later leads onward item stored
    -- A step loses nothing only where the invariant holds, so both are carried along.
    have both : motive later ∧ stores later item := by
      apply onward.keeps (motive := fun state => motive state ∧ stores state item) _
        ⟨reached state leads, stored⟩
      rintro state next ⟨kept, held⟩ stepped
      obtain ⟨still, grows⟩ := keep state next kept stepped
      exact ⟨still, grows item held⟩
    exact both.2

end GrammarReach.Loop
