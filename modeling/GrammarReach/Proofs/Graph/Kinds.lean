import GrammarReach.Graph.Text
import GrammarReach.Proofs.Grammar
import GrammarReach.Proofs.Graph.Merge

namespace GrammarReach

namespace Multigraph

/-- A graph in which one kind is direct and all edges are of the given kinds. -/
structure OfKinds (direct : Kind) (known : Kind → Prop) (graph : Multigraph) : Prop where
  valid : graph.Valid
  direct : ∀ kind, graph.isDirect kind ↔ kind = direct
  kinds : ∀ edge, graph.hasEdge edge → known edge.label.symbol

/-- The graphs that can be built from edges of the given kinds. -/
inductive Assembled (direct : Kind) (known : Kind → Prop) : Multigraph → Prop
  | empty : Assembled direct known (withDirectKinds [direct])
  | addNode {graph : Multigraph} (node : Node) : Assembled direct known graph →
      Assembled direct known (graph.addNode node).1
  | markSource {graph : Multigraph} (node : Node) : Assembled direct known graph →
      Assembled direct known (graph.markSource node)
  | addEdge {graph : Multigraph} (edge : Edge) : known edge.label.symbol →
      Assembled direct known graph → Assembled direct known (graph.addEdge edge).1
  | removeEdge {graph : Multigraph} (id : EdgeId) : Assembled direct known graph →
      Assembled direct known (graph.removeEdge id).1
  | setContributing {graph : Multigraph} (id : EdgeId) (value : Bool) :
      Assembled direct known graph → Assembled direct known (graph.setContributing id value)
  | merge {graph : Multigraph} (node target : Node) : Assembled direct known graph →
      Assembled direct known (graph.merge node target).1

variable {direct : Kind} {known : Kind → Prop} {graph before after : Multigraph}

theorem OfKinds.of_quotient (kept : before.OfKinds direct known)
    (quotient : before.Quotient after) : after.OfKinds direct known where
  valid := quotient.valid
  direct kind := by rw [quotient.isDirect_eq, kept.direct]
  kinds edge there := by
    obtain ⟨old, stood, rfl, -⟩ := (quotient.edges edge).mp there
    exact kept.kinds old stood

theorem OfKinds.not_isDirect (kept : graph.OfKinds direct known) {kind : Kind} (apart : kind ≠ direct) :
    ¬ graph.isDirect kind :=
  fun straight => apart ((kept.direct kind).mp straight)

/-- An edge of another kind is kept, between the representatives of its ends. -/
theorem OfKinds.hasEdge_represented (kept : before.OfKinds direct known)
    (quotient : before.Quotient after) {edge : Edge} (there : before.hasEdge edge)
    (apart : edge.label.symbol ≠ direct) : after.hasEdge (after.represented edge) :=
  (quotient.edges _).mpr
    ⟨edge, there, rfl, fun loop => (kept.of_quotient quotient).not_isDirect apart loop.1⟩

theorem ofKinds_empty : (withDirectKinds [direct]).OfKinds direct known where
  valid := valid_withDirectKinds _
  direct kind := by
    simp only [isDirect, withDirectKinds, Std.TreeSet.contains_ofList, List.contains_iff_mem,
      List.mem_singleton]
  kinds edge there := by simp [withDirectKinds, hasEdge] at there

theorem OfKinds.addEdge (kept : graph.OfKinds direct known) (edge : Edge)
    (kind : known edge.label.symbol) : (graph.addEdge edge).1.OfKinds direct known where
  valid := kept.valid.addEdge edge
  direct kind := by
    rw [isDirect, (kept_addEdge graph edge).2]
    exact kept.direct kind
  kinds other there := by
    obtain old | ⟨rfl, -⟩ := (hasEdge_addEdge graph edge other).mp there
    · exact kept.kinds other old
    · exact kind

theorem OfKinds.removeEdge (kept : graph.OfKinds direct known) (id : EdgeId) :
    (graph.removeEdge id).1.OfKinds direct known where
  valid := kept.valid.removeEdge id
  direct kind := by
    rw [isDirect, (kept_removeEdge graph id).2.2]
    exact kept.direct kind
  kinds other there := kept.kinds other ((hasEdge_removeEdge kept.valid id other).mp there).1

theorem OfKinds.merge (kept : graph.OfKinds direct known) (node target : Node) :
    (graph.merge node target).1.OfKinds direct known := by
  by_cases idle : graph.hasNode node = false ∨ node = graph.repOf target
  · rwa [merge_of_same idle]
  · rw [not_or, Bool.not_eq_false] at idle
    have grown : (graph.addNode target).1.OfKinds direct known :=
      ⟨kept.valid.addNode target, kept.direct, kept.kinds⟩
    exact grown.of_quotient (kept.valid.quotient_merge idle.1 idle.2).1

theorem Assembled.ofKinds (assembled : Assembled direct known graph) :
    graph.OfKinds direct known := by
  induction assembled with
  | empty => exact ofKinds_empty
  | addNode node _ kept => exact ⟨kept.valid.addNode node, kept.direct, kept.kinds⟩
  | markSource node _ kept => exact ⟨kept.valid.markSource node, kept.direct, kept.kinds⟩
  | addEdge edge kind _ kept => exact kept.addEdge edge kind
  | removeEdge id _ kept => exact kept.removeEdge id
  | setContributing id value _ kept =>
    exact ⟨kept.valid.setContributing id value, kept.direct, kept.kinds⟩
  | merge node target _ kept => exact kept.merge node target

end Multigraph

namespace EdgeListFormat

open Multigraph (Assembled)

variable {format : EdgeListFormat} {grammar : Grammar} {direct : Kind} {known : Kind → Prop}

private theorem assembled_addRecord
    (kinds : ∀ label kind, format.edgeKind? grammar label = some kind → known kind)
    {graph final : Multigraph} (assembled : Assembled direct known graph) {record : Text.Record}
    (added : format.addRecord grammar graph record = .ok final) : Assembled direct known final := by
  unfold addRecord at added
  simp only [bind, Except.bind, pure, Except.pure] at added
  repeat' split at added
  all_goals cases added
  · exact assembled.markSource _
  · exact assembled
  · next found _ _ _ => exact assembled.addEdge _ (kinds _ _ found)

/-- What a text is read into is built from the kinds that its labels can name. -/
theorem assembled_of_read
    (kinds : ∀ label kind, format.edgeKind? grammar label = some kind → known kind)
    (declared : format.direct.mapM grammar.lookup = .ok [direct]) {text : String} {graph : Multigraph}
    (reads : format.read grammar text = .ok graph) : Assembled direct known graph := by
  rw [read, declared] at reads
  exact Grammar.foldlM_keeps (fun _ _ _ kept => assembled_addRecord kinds kept) _ _ graph .empty reads

end EdgeListFormat

end GrammarReach
