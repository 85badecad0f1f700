import Mathlib.Logic.Relation
import GrammarReach.Label

namespace GrammarReach

open Relation (ReflTransGen TransGen)

def WithEdge (links : Node → Node → Prop) (src dst u v : Node) : Prop :=
  links u v ∨ (u = src ∧ v = dst)

/-- A new edge leads from whatever reaches its start to whatever its end reaches. -/
theorem reflTransGen_withEdge (links : Node → Node → Prop) (src dst u v : Node) :
    ReflTransGen (WithEdge links src dst) u v ↔
      ReflTransGen links u v ∨ (ReflTransGen links u src ∧ ReflTransGen links dst v) := by
  constructor
  · intro path
    induction path with
    | refl => exact .inl .refl
    | tail _ edge ih =>
      rcases edge with old | ⟨rfl, rfl⟩
      · rcases ih with direct | ⟨before, behind⟩
        · exact .inl (direct.tail old)
        · exact .inr ⟨before, behind.tail old⟩
      · rcases ih with direct | ⟨before, -⟩
        · exact .inr ⟨direct, .refl⟩
        · exact .inr ⟨before, .refl⟩
  · have widen : ∀ {u v : Node}, ReflTransGen links u v → ReflTransGen (WithEdge links src dst) u v :=
      fun path => ReflTransGen.mono (fun _ _ old => Or.inl old) _ _ path
    rintro (path | ⟨before, behind⟩)
    · exact widen path
    · exact ((widen before).tail (.inr ⟨rfl, rfl⟩)).trans (widen behind)

theorem reflTransGen_of_withEdge {links grown : Node → Node → Prop} {src dst : Node}
    (linked : ∀ u v, grown u v ↔ WithEdge links src dst u v) (u v : Node) :
    ReflTransGen grown u v ↔
      ReflTransGen links u v ∨ (ReflTransGen links u src ∧ ReflTransGen links dst v) := by
  obtain rfl : grown = WithEdge links src dst := by
    funext u v
    exact propext (linked u v)
  exact reflTransGen_withEdge links src dst u v

/-- A path of at least one edge does without a new edge, or passes it. -/
theorem transGen_withEdge {links : Node → Node → Prop} {src dst u v : Node}
    (path : TransGen (WithEdge links src dst) u v) :
    TransGen links u v ∨ (ReflTransGen links u src ∧ ReflTransGen links dst v) := by
  induction path with
  | single edge =>
    rcases edge with old | ⟨rfl, rfl⟩
    · exact .inl (.single old)
    · exact .inr ⟨.refl, .refl⟩
  | tail _ edge ih =>
    rcases edge with old | ⟨rfl, rfl⟩
    · rcases ih with direct | ⟨before, behind⟩
      · exact .inl (direct.tail old)
      · exact .inr ⟨before, behind.tail old⟩
    · rcases ih with direct | ⟨before, -⟩
      · exact .inr ⟨direct.to_reflTransGen, .refl⟩
      · exact .inr ⟨before, .refl⟩

/-- Edges that a new edge makes up for may go missing. -/
theorem reflTransGen_withEdge_congr {links thinned : Node → Node → Prop} {src dst : Node}
    (kept : ∀ u v, thinned u v → links u v)
    (dropped : ∀ u v, links u v →
      thinned u v ∨ (ReflTransGen thinned u src ∧ ReflTransGen thinned dst v)) (u v : Node) :
    ReflTransGen (WithEdge thinned src dst) u v ↔ ReflTransGen (WithEdge links src dst) u v := by
  constructor
  · exact fun path => ReflTransGen.mono (fun _ _ edge => Or.imp_left (kept _ _) edge) _ _ path
  · intro path
    induction path with
    | refl => exact .refl
    | tail _ edge ih =>
      rcases edge with link | new
      · rcases dropped _ _ link with there | around
        · exact ih.tail (.inl there)
        · exact ih.trans ((reflTransGen_withEdge thinned src dst _ _).mpr (.inr around))
      · exact ih.tail (.inr new)

/-- What taking in an edge does to a closure: one link more at most, between nodes that were not
connected, and the pairs that this makes reachable are reported once each. -/
structure Inserts (before : Node → Node → Prop) (src dst : Node) (after : Node → Node → Prop)
    (found : List (Node × Node)) : Prop where
  links : ∀ u v, after u v → before u v ∨ (u = src ∧ v = dst ∧ ¬ ReflTransGen before src dst)
  reaches : ∀ u v, ReflTransGen after u v ↔
    ReflTransGen before u v ∨ (ReflTransGen before u src ∧ ReflTransGen before dst v)
  distinct : found.Nodup
  mem_found : ∀ u v, (u, v) ∈ found ↔ ReflTransGen after u v ∧ ¬ ReflTransGen before u v

/-- An edge between nodes that are connected already changes nothing. -/
theorem Inserts.nothing {links : Node → Node → Prop} {src dst : Node}
    (known : ReflTransGen links src dst) : Inserts links src dst links [] where
  links _ _ link := .inl link
  reaches _ _ := (or_iff_left_of_imp fun ⟨before, behind⟩ => (before.trans known).trans behind).symm
  distinct := List.nodup_nil
  mem_found _ _ := by simp

end GrammarReach
