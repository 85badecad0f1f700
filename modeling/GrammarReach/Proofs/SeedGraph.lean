import Mathlib.Tactic.Tauto
import GrammarReach.Proofs.Solve.Derivation

namespace GrammarReach.SeedGraph

/-- A node or an edge that is added to seeds. -/
inductive Addition
  | node (added : Node)
  | edge (added : Edge)

/-- What puts a node into seeds: the node itself, or an edge at it. -/
def Addition.Brings (wanted : Node) : Addition → Prop
  | .node added => added = wanted
  | .edge added => added.src = wanted ∨ added.dst = wanted

def add (seeds : SeedGraph) : Addition → SeedGraph
  | .node added => seeds.addNode added
  | .edge added => seeds.addEdge added

def addAll (seeds : SeedGraph) (additions : List Addition) : SeedGraph := additions.foldl add seeds

/-- The seeds that a sequence of additions comes to. -/
def ofAdditions (additions : List Addition) : SeedGraph := addAll {} additions

variable {seeds : SeedGraph}

theorem mem_nodes_add (seeds : SeedGraph) (addition : Addition) (node : Node) :
    node ∈ (seeds.add addition).nodes ↔ node ∈ seeds.nodes ∨ addition.Brings node := by
  cases addition with
  | node added =>
    simp only [add, addNode, Addition.Brings, Std.TreeSet.mem_insert, Std.LawfulEqCmp.compare_eq_iff_eq]
    exact or_comm
  | edge added =>
    simp only [add, addEdge, Addition.Brings, Std.TreeSet.mem_insert, Std.LawfulEqCmp.compare_eq_iff_eq]
    tauto

theorem mem_edges_add (seeds : SeedGraph) (addition : Addition) (edge : Edge) :
    edge ∈ (seeds.add addition).edges ↔ edge ∈ seeds.edges ∨ .edge edge = addition := by
  cases addition <;> simp [add, addNode, addEdge]

theorem mem_nodes_addAll (additions : List Addition) (seeds : SeedGraph) (node : Node) :
    node ∈ (seeds.addAll additions).nodes ↔
      node ∈ seeds.nodes ∨ ∃ addition ∈ additions, addition.Brings node := by
  induction additions generalizing seeds with
  | nil => simp [addAll]
  | cons addition additions ih =>
    refine (ih (seeds.add addition)).trans ?_
    rw [mem_nodes_add, List.exists_mem_cons_iff, or_assoc]

theorem mem_edges_addAll (additions : List Addition) (seeds : SeedGraph) (edge : Edge) :
    edge ∈ (seeds.addAll additions).edges ↔ edge ∈ seeds.edges ∨ .edge edge ∈ additions := by
  induction additions generalizing seeds with
  | nil => simp [addAll]
  | cons addition additions ih =>
    refine (ih (seeds.add addition)).trans ?_
    rw [mem_edges_add, List.mem_cons, or_assoc]

theorem reflexive_addAll (additions : List Addition) (seeds : SeedGraph) :
    (seeds.addAll additions).reflexive = seeds.reflexive := by
  induction additions generalizing seeds with
  | nil => rfl
  | cons addition additions ih =>
    refine (ih (seeds.add addition)).trans ?_
    cases addition <;> rfl

theorem mem_nodes_ofAdditions (additions : List Addition) (node : Node) :
    node ∈ (ofAdditions additions).nodes ↔ ∃ addition ∈ additions, addition.Brings node :=
  (mem_nodes_addAll additions {} node).trans (or_iff_right Std.TreeSet.not_mem_emptyc)

theorem mem_edges_ofAdditions (additions : List Addition) (edge : Edge) :
    edge ∈ (ofAdditions additions).edges ↔ .edge edge ∈ additions :=
  (mem_edges_addAll additions {} edge).trans (or_iff_right List.not_mem_nil)

theorem reflexive_ofAdditions (additions : List Addition) : (ofAdditions additions).reflexive = [] :=
  reflexive_addAll additions {}

/-- Where additions alone have brought the edges, every node that the seeds mention is one of their nodes. -/
theorem mem_nodes_of_mentioned (none : seeds.edges = []) (additions : List Addition) {node : Node}
    (mentioned : node ∈ (seeds.addAll additions).mentionedNodes) :
    node ∈ (seeds.addAll additions).nodes := by
  obtain listed | touched := List.mem_append.mp mentioned
  · exact Std.TreeSet.mem_toList.mp listed
  · obtain ⟨edge, seeded, stop⟩ := List.mem_flatMap.mp touched
    rw [mem_edges_addAll, none, or_iff_right List.not_mem_nil] at seeded
    refine (mem_nodes_addAll additions seeds node).mpr (.inr ⟨_, seeded, ?_⟩)
    exact (List.mem_pair.mp stop).imp Eq.symm Eq.symm

end GrammarReach.SeedGraph
