import Mathlib.Data.List.Basic
import Mathlib.Data.List.Induction
import Mathlib.Logic.Relation
import GrammarReach.Label

namespace GrammarReach

open Relation (ReflTransGen)

variable {σ : Type}

/-- Visits a node, and notes it with what its visit answers. -/
def recorded (visit : σ → Node → σ × Bool) (noted : σ × List (Node × Bool)) (node : Node) :
    (σ × List (Node × Bool)) × Bool :=
  let (state, deeper) := visit noted.1 node
  ((state, noted.2 ++ [(node, deeper)]), deeper)

/-- A visit does to what is seen of a state what another one does to the state, and answers the
same. -/
def Follows {τ : Type} (view : τ → σ) (visit : σ → Node → σ × Bool)
    (visit' : τ → Node → τ × Bool) : Prop :=
  ∀ state node, visit (view state) node = (view (visit' state node).1, (visit' state node).2)

theorem follows_recorded (visit : σ → Node → σ × Bool) : Follows Prod.fst visit (recorded visit) :=
  fun _ _ => rfl

/-- Visits nodes in order, and notes what their visits answer. -/
def replay (visit : σ → Node → σ × Bool) (state : σ) (nodes : List Node) :
    σ × List (Node × Bool) :=
  nodes.foldl (fun noted node => (recorded visit noted node).1) (state, [])

theorem replay_concat (visit : σ → Node → σ × Bool) (state : σ) (nodes : List Node) (node : Node) :
    replay visit state (nodes ++ [node]) = (recorded visit (replay visit state nodes) node).1 := by
  rw [replay, List.foldl_concat]
  rfl

/-- Notes do not change what the visits make of their state. -/
theorem replay_fst (visit : σ → Node → σ × Bool) (state : σ) (nodes : List Node) :
    (replay visit state nodes).1 = nodes.foldl (fun state node => (visit state node).1) state := by
  induction nodes using List.reverseRecOn with
  | nil => rfl
  | append_singleton nodes node ih =>
    rw [replay_concat, List.foldl_concat, ← ih]
    rfl

/-- Every visit is noted. -/
theorem map_fst_replay (visit : σ → Node → σ × Bool) (state : σ) (nodes : List Node) :
    (replay visit state nodes).2.map Prod.fst = nodes := by
  induction nodes using List.reverseRecOn with
  | nil => rfl
  | append_singleton nodes node ih =>
    rw [replay_concat]
    simp [recorded, ih]

/-- Noting the visits of visits that are noted already gives the same notes. -/
theorem replay_recorded (visit : σ → Node → σ × Bool) (state : σ) (nodes : List Node) :
    replay (recorded visit) (state, []) nodes =
      (replay visit state nodes, (replay visit state nodes).2) := by
  induction nodes using List.reverseRecOn with
  | nil => rfl
  | append_singleton nodes node ih =>
    rw [replay_concat, replay_concat, ih]
    rfl

/-- Where every visit asks to go on, no other answer is noted. -/
theorem answers_replay {visit : σ → Node → σ × Bool} (goesOn : ∀ state node, (visit state node).2)
    (state : σ) (nodes : List Node) : ∀ noted ∈ (replay visit state nodes).2, noted.2 := by
  induction nodes using List.reverseRecOn with
  | nil => simp [replay]
  | append_singleton nodes node ih =>
    rw [replay_concat]
    simp only [recorded, List.forall_mem_append, List.forall_mem_singleton]
    exact ⟨ih, goesOn _ _⟩

/-- A node was visited, or lies behind a visited one whose visit did not ask to go on. -/
def Covered (reaches : Node → Node → Prop) (visits : List (Node × Bool)) (node : Node) : Prop :=
  node ∈ visits.map Prod.fst ∨ ∃ stop, (stop, false) ∈ visits ∧ reaches stop node

/-- What a covered node leads to is covered, if it was visited where the visit of the node asked for
it. -/
theorem Covered.next {links : Node → Node → Prop} {visits : List (Node × Bool)} {node next : Node}
    (covered : Covered (ReflTransGen links) visits node) (link : links node next)
    (further : (node, true) ∈ visits → next ∈ visits.map Prod.fst) :
    Covered (ReflTransGen links) visits next := by
  rcases covered with visited | ⟨stop, listed, path⟩
  · obtain ⟨⟨source, answer⟩, listed, rfl⟩ := List.mem_map.mp visited
    cases answer with
    | true => exact .inl (further listed)
    | false => exact .inr ⟨source, listed, .single link⟩
  · exact .inr ⟨stop, listed, path.tail link⟩

/-- The visits of a walk that goes on behind some nodes only: to other nodes than the start, within
reach of it, each once, and what is left out lies behind a node whose visit did not ask for it. -/
structure Prunes (reaches : Node → Node → Prop) (start : Node) (visits : List (Node × Bool)) :
    Prop where
  distinct : (visits.map Prod.fst).Nodup
  sound : ∀ node ∈ visits.map Prod.fst, node ≠ start ∧ reaches start node
  covers : ∀ node, node ≠ start → reaches start node → Covered reaches visits node

/-- Where every visit asks to go on, nothing is left out. -/
theorem Prunes.all {reaches : Node → Node → Prop} {start : Node} {visits : List (Node × Bool)}
    (prunes : Prunes reaches start visits) (answers : ∀ noted ∈ visits, noted.2) (node : Node) :
    node ∈ visits.map Prod.fst ↔ node ≠ start ∧ reaches start node := by
  refine ⟨prunes.sound node, fun ⟨apart, reached⟩ => ?_⟩
  refine (prunes.covers node apart reached).resolve_right ?_
  rintro ⟨stop, listed, -⟩
  exact absurd (answers _ listed) (by simp)

end GrammarReach
