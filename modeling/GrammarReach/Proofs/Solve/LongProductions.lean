import Mathlib.Order.Bounds.Defs
import GrammarReach.Proofs.Grammar.Indices
import GrammarReach.Proofs.Grammar.Reading
import GrammarReach.Proofs.Solve.Exact

/-!
Splitting long productions does not change what is derived.

A set of edges is closed under written productions when a path whose labels spell the right-hand side of
one, with a common index, has an edge under the left-hand side from its beginning to its end. Where no
written name could have been generated, the edges under written names that a solve of the split
productions finds are the least such set that holds the seeds.

One direction reads an edge under a generated symbol as a path that spells the beginning of the production
it was generated for. The other one follows a path along the chain of the production.
-/

namespace GrammarReach

/-- Edges of the set lead from one node to another, under the labels in order. -/
def Along (edges : Set Edge) : List Label → Node → Node → Prop
  | [], src, dst => src = dst
  | label :: labels, src, dst => ∃ middle, ⟨src, middle, label⟩ ∈ edges ∧ Along edges labels middle dst

section Along

variable {edges more : Set Edge} {front back labels : List Label} {src middle dst : Node}

theorem Along.append (first : Along edges front src middle) (second : Along edges back middle dst) :
    Along edges (front ++ back) src dst := by
  induction front generalizing src with
  | nil =>
    obtain rfl : src = middle := first
    exact second
  | cons label front ih =>
    obtain ⟨next, inside, rest⟩ := first
    exact ⟨next, inside, ih rest⟩

theorem along_singleton {label : Label} : Along edges [label] src dst ↔ ⟨src, dst, label⟩ ∈ edges := by
  simp [Along]

theorem Along.mono (sub : edges ⊆ more) (along : Along edges labels src dst) :
    Along more labels src dst := by
  induction labels generalizing src with
  | nil => exact along
  | cons label labels ih =>
    obtain ⟨next, inside, rest⟩ := along
    exact ⟨next, sub inside, ih rest⟩

end Along

namespace Grammar

variable {grammar : Grammar} {productions : List Production} {seeds : SeedGraph} {edges : Set Edge}

/-- The symbol bears a name that some production writes. -/
def Writes (grammar : Grammar) (productions : List Production) (symbol : Symbol) : Prop :=
  ∃ production ∈ productions, ∃ name ∈ production.names, grammar.name? symbol = some name

/-- The set holds the seed edges and what the productions, each taken as a whole, derive from paths in it:
an edge from the beginning of the path to its end. A production with nothing on the right derives one at
every node of the seeds. -/
structure ClosedUnder (grammar : Grammar) (productions : List Production) (seeds : SeedGraph)
    (edges : Set Edge) : Prop where
  initial : ∀ edge ∈ seeds.edges, edge ∈ edges
  derived : ∀ production ∈ productions, ∀ (lhs : Symbol) (labels : List Label) (index? : Option Nat)
    (src dst : Node), grammar.name? lhs = some production.lhs →
    labels.map (grammar.name? ·.symbol) = production.rhs.map some → grammar.Carries labels index? →
    Along edges labels src dst → (labels = [] → src ∈ seeds.nodes) →
    ⟨src, dst, grammar.inherit lhs index?⟩ ∈ edges

/-- An edge reads as a path in the set that spells what its symbol stands for, with the index that the edge
hands on. An edge under a symbol that was not generated is in the set itself. -/
structure Means (grammar : Grammar) (stands : Symbol → List Symbol) (edges : Set Edge) (edge : Edge) :
    Prop where
  own : ¬ grammar.Generated edge.label.symbol → edge ∈ edges
  path : ∃ labels, labels.map (·.symbol) = stands edge.label.symbol ∧
    grammar.Carries labels (grammar.ownIndex? edge.label) ∧ Along edges labels edge.src edge.dst

variable {stands : Symbol → List Symbol}

theorem Reads.means_of_mem (reads : Reads grammar productions stands) {edge : Edge} (inside : edge ∈ edges)
    (plain : ¬ grammar.Generated edge.label.symbol) : Means grammar stands edges edge where
  own _ := inside
  path := ⟨[edge.label], by rw [reads.itself _ plain]; rfl, carries_singleton.mpr rfl,
    along_singleton.mpr inside⟩

/-- What a production of the tables derives from a path that spells what its right-hand side stands for. -/
theorem Reads.means_rule (reads : Reads grammar productions stands)
    (closed : grammar.ClosedUnder productions seeds edges) {rule : Rule} (has : grammar.Has rule)
    {labels : List Label} {index? : Option Nat} {src dst : Node}
    (spelled : labels.map (·.symbol) = rule.rhs.flatMap stands) (carries : grammar.Carries labels index?)
    (varies : index?.isSome = rule.rhs.any grammar.isVariant) (along : Along edges labels src dst)
    (rooted : labels = [] → src ∈ seeds.nodes) :
    Means grammar stands edges ⟨src, dst, grammar.inherit rule.lhs index?⟩ := by
  by_cases made : grammar.Generated rule.lhs
  · obtain ⟨stood, variant⟩ := reads.generated rule has made
    refine ⟨fun plain => absurd made (by simpa using plain), labels, ?_, ?_, along⟩
    · simpa [stood] using spelled
    · rwa [ownIndex?_inherit (variant.trans varies.symm)]
  · obtain ⟨production, listed, head, rest⟩ := reads.written rule has made
    refine reads.means_of_mem ?_ (by simpa using made)
    refine closed.derived production listed rule.lhs labels index? src dst head ?_ carries along rooted
    rw [← rest, ← spelled, List.map_map]
    rfl

/-- Every derived edge reads as a path in a closed set. -/
theorem Reads.means_derived (reads : Reads grammar productions stands)
    (closed : grammar.ClosedUnder productions seeds edges) (none : seeds.reflexive = [])
    (plain : ∀ edge ∈ seeds.edges, ¬ grammar.Generated edge.label.symbol) {edge : Edge}
    (derived : seeds.Derives grammar edge) : Means grammar stands edges edge := by
  refine derived.least ?_ ?_ ?_ ?_
  · rintro edge ⟨-, listed | ⟨node, known, symbol, nullable, rfl⟩⟩
    · exact reads.means_of_mem (closed.initial edge listed) (plain edge listed)
    · have has : grammar.Has ⟨symbol, []⟩ := nullable
      have along : Along edges [] node node := rfl
      exact reads.means_rule closed has (by rfl) (carries_nil.mpr rfl) rfl along fun _ => known
  · exact fun edge silent => absurd silent (SeedGraph.not_silent_of_none none grammar edge)
  · intro edge means _ label derived
    obtain ⟨⟨lhs, rhs⟩, listed, same, -, rfl⟩ := (grammar.mem_derivedUnary _ _).mp derived
    have has : grammar.Has ⟨lhs, [rhs]⟩ := listed
    obtain ⟨labels, spelled, carries, along⟩ := means.path
    obtain rfl : rhs = edge.label.symbol := same
    refine reads.means_rule closed has (by simpa using spelled) carries ?_ along fun none => ?_
    · simp [isSome_ownIndex?]
    · -- No symbol stands for nothing, so the path has a label.
      subst none
      exact absurd spelled.symm (reads.nonempty _)
  · intro left right first second _ meets label derived
    obtain ⟨agree, ⟨lhs, one, two⟩, listed, sameLeft, sameRight, -, rfl⟩ :=
      (grammar.mem_derivedBinary _ _ _).mp derived
    have has : grammar.Has ⟨lhs, [one, two]⟩ := listed
    obtain ⟨labels, spelled, carries, along⟩ := first.path
    obtain ⟨behind, spelled', carries', along'⟩ := second.path
    obtain rfl : one = left.label.symbol := sameLeft
    obtain rfl : two = right.label.symbol := sameRight
    refine reads.means_rule closed has ?_ (carries.append carries' (agree_iff_ownIndex?.mp agree)) ?_
      (along.append (meets ▸ along')) fun none => ?_
    · simp [spelled, spelled']
    · simp [isSome_ownIndex?, Option.isSome_or]
    · rw [(List.append_eq_nil_iff.mp none).1] at spelled
      exact absurd spelled.symm (reads.nonempty _)

/-- A path behind an edge derives, along a chain that begins with the symbol of the edge, what the chain
derives: each link joins the first two labels into one under a generated symbol. -/
theorem derives_chain (none : seeds.reflexive = []) {lhs : Symbol} (sound : lhs ≠ Symbol.fault)
    (rest : List Symbol) : ∀ (fresh left : Symbol), lhs < fresh →
    (∀ rule ∈ chain lhs fresh left rest, grammar.Has rule ∧
      (rule.lhs ≠ lhs → grammar.isVariant rule.lhs = rule.rhs.any grammar.isVariant)) →
    ∀ (first : Edge) (labels : List Label) (dst : Node) (index? : Option Nat),
      seeds.Derives grammar first → first.label.symbol = left → labels.map (·.symbol) = rest →
      grammar.Carries (first.label :: labels) index? → Along {edge | seeds.Derives grammar edge} labels first.dst dst →
      seeds.Derives grammar ⟨first.src, dst, grammar.inherit lhs index?⟩ := by
  have audible := SeedGraph.not_silent_of_none none grammar
  induction rest with
  | nil =>
    rintro fresh left _ links first labels dst index? derived rfl spelled carries along
    obtain rfl := List.map_eq_nil_iff.mp spelled
    obtain rfl : first.dst = dst := along
    obtain rfl := carries_singleton.mp carries
    have rule : ⟨lhs, first.label.symbol⟩ ∈ grammar.unary := (links _ List.mem_cons_self).1
    exact .alone derived ((grammar.mem_derivedUnary _ _).mpr ⟨_, rule, rfl, sound, rfl⟩) (audible _)
  | cons next rest ih =>
    rintro fresh left above links first labels dst index? derived rfl spelled carries along
    obtain ⟨label, labels, rfl, rfl, rfl⟩ := List.map_eq_cons_iff.mp spelled
    obtain ⟨middle, second, along⟩ := along
    have second : seeds.Derives grammar ⟨first.dst, middle, label⟩ := second
    cases labels with
    | nil =>
      obtain rfl : middle = dst := along
      obtain rfl := carries.pair
      have rule : ⟨lhs, first.label.symbol, label.symbol⟩ ∈ grammar.binary := (links _ List.mem_cons_self).1
      exact .both derived second rfl ((grammar.mem_derivedBinary _ _ _).mpr
        ⟨carries.agree, _, rule, rfl, rfl, sound, rfl⟩) (audible _)
    | cons last labels =>
      obtain ⟨has, varies⟩ := links ⟨fresh, [first.label.symbol, label.symbol]⟩ List.mem_cons_self
      have rule : ⟨fresh, first.label.symbol, label.symbol⟩ ∈ grammar.binary := has
      have known : fresh ≠ Symbol.fault := Nat.ne_of_gt (Nat.zero_lt_of_lt above)
      let common := (grammar.ownIndex? first.label).or (grammar.ownIndex? label)
      have joined : seeds.Derives grammar ⟨first.src, middle, grammar.inherit fresh common⟩ :=
        .both derived second rfl ((grammar.mem_derivedBinary _ _ _).mpr
          ⟨carries.agree, _, rule, rfl, rfl, known, rfl⟩) (audible _)
      have own : grammar.ownIndex? (grammar.inherit fresh common) = common := by
        refine ownIndex?_inherit ((varies (Nat.ne_of_gt above)).trans ?_)
        simp [common, Option.isSome_or, isSome_ownIndex?]
      -- The joined edge takes the place of the first two, and the rest of the chain goes on from it.
      exact ih (fresh + 1) fresh (Nat.lt_succ_of_lt above)
        (fun rule link => links rule (List.mem_cons_of_mem _ link))
        ⟨first.src, middle, grammar.inherit fresh common⟩ (last :: labels) dst index? joined
        (grammar.symbol_inherit ..) rfl (carries.join own) along

/-- The derived edges under written names are closed under the written productions. -/
theorem closedUnder_derived (none : seeds.reflexive = [])
    (mentioned : ∀ edge ∈ seeds.edges,
      (ofProductions productions).Writes productions edge.label.symbol) :
    (ofProductions productions).ClosedUnder productions seeds
      {edge | seeds.Derives (ofProductions productions) edge ∧
        (ofProductions productions).Writes productions edge.label.symbol} where
  initial edge listed := by
    obtain ⟨_, -, _, -, named⟩ := mentioned edge listed
    have sound := (Declared.of_name named).ne_fault
    exact ⟨.initial ⟨fun fault => sound ((isFault_iff _).mp fault), .inl listed⟩, mentioned edge listed⟩
  derived production inside lhs labels index? src dst head rest carries along rooted := by
    refine ⟨?_, production, inside, production.lhs, List.mem_cons_self, by simpa using head⟩
    have sound := (Declared.of_name head).ne_fault
    obtain ⟨fresh, other, rhs, otherHead, otherRest, above, links⟩ := parts_of_written inside
    have distinct := (wellFormed_ofProductions productions).distinct
    obtain rfl := symbol_unique distinct head otherHead
    obtain rfl : labels.map (·.symbol) = rhs :=
      symbols_unique distinct (by rw [← rest, List.map_map]; rfl) otherRest
    have along : Along {edge | seeds.Derives (ofProductions productions) edge} labels src dst :=
      along.mono fun _ => And.left
    cases labels with
    | nil =>
      obtain rfl := carries_nil.mp carries
      obtain rfl : src = dst := along
      have nullable : lhs ∈ (ofProductions productions).nullable := (links _ List.mem_cons_self).1
      exact .initial ⟨fun fault => sound ((isFault_iff _).mp fault),
        .inr ⟨src, rooted rfl, lhs, nullable, rfl⟩⟩
    | cons label labels =>
      obtain ⟨middle, first, along⟩ := along
      exact derives_chain none sound _ fresh _ above links ⟨src, middle, label⟩ labels dst index? first rfl rfl
        carries along

end Grammar

namespace Solver

open Grammar

variable {productions : List Production} {config : Config} {solver : Solver} {seeds : SeedGraph}

/-- Where no written name could have been generated, a solve finds, under the written names, the least set
of edges that holds the seeds and is closed under the productions as they were written. -/
theorem solve_productions (clean : ∀ production ∈ productions, production.Clean)
    (none : seeds.reflexive = [])
    (mentioned : ∀ edge ∈ seeds.edges, (ofProductions productions).Writes productions edge.label.symbol)
    (made : prepare (ofProductions productions) config = .ok solver) (standard : config.variant = .standard)
    (order : LabelOrder) {deadline : Deadline} (unexpired : ∀ tick, deadline.expired tick = false) :
    ∃ result, solver.solveInOrder order seeds deadline = .ok result ∧
      IsLeast {edges | (ofProductions productions).ClosedUnder productions seeds edges}
        {edge | result.data.contains edge ∧
          (ofProductions productions).Writes productions edge.label.symbol} := by
  obtain ⟨result, ran, found⟩ := solve_standard made standard seeds order unexpired
  have same : {edge | result.data.contains edge ∧
      (ofProductions productions).Writes productions edge.label.symbol} =
      {edge | seeds.Derives (ofProductions productions) edge ∧
        (ofProductions productions).Writes productions edge.label.symbol} :=
    Set.ext fun edge => and_congr_left fun _ =>
      (found edge).trans (SeedGraph.solution_iff_derives none edge)
  refine ⟨result, ran, same ▸ ⟨closedUnder_derived none mentioned, fun edges closed edge inside => ?_⟩⟩
  obtain ⟨stands, reads⟩ := exists_reads productions clean
  have plain : ∀ {symbol}, (ofProductions productions).Writes productions symbol →
      ¬ (ofProductions productions).Generated symbol := by
    rintro symbol ⟨production, listed, name, written, named⟩ ⟨other, same, form⟩
    rw [named, Option.some.injEq] at same
    exact clean production listed name written (same ▸ form)
  exact (reads.means_derived closed none (fun edge listed => plain (mentioned edge listed)) inside.1).own
    (plain inside.2)

def callProductions : List Production := [⟨"S", ["call_i", "a", "ret_i", "a"]⟩]

/-- A path that spells it, call and return with one index. -/
def callSeeds : SeedGraph := .ofEdges [⟨1, 2, ⟨2, 7⟩⟩, ⟨2, 3, .plain 3⟩, ⟨3, 4, ⟨4, 7⟩⟩, ⟨4, 5, .plain 3⟩]

theorem solve_productions_call : ∃ solver result, prepare (ofProductions callProductions) {} = .ok solver ∧
    solver.solveInOrder .ascending callSeeds .unlimited = .ok result ∧
    result.data.contains ⟨1, 5, .plain 1⟩ := by
  have made : prepare (ofProductions callProductions) {} = .ok _ := rfl
  have clean : ∀ production ∈ callProductions, production.Clean := by
    intro production listed name written
    refine not_isGeneratedName ?_
    revert production name
    decide +kernel
  have mentioned : ∀ edge ∈ callSeeds.edges,
      (ofProductions callProductions).Writes callProductions edge.label.symbol := by
    have named : ∀ edge ∈ callSeeds.edges, ∃ name ∈ ["S", "call_i", "a", "ret_i", "a"],
        (ofProductions callProductions).name? edge.label.symbol = some name := by decide +kernel
    exact fun edge listed => ⟨_, List.mem_singleton_self _, named edge listed⟩
  have unexpired : ∀ tick, Deadline.unlimited.expired tick = false := fun _ => rfl
  obtain ⟨result, ran, closed, -⟩ := solve_productions clean rfl mentioned made rfl .ascending unexpired
  have carries : (ofProductions callProductions).Carries [⟨2, 7⟩, .plain 3, ⟨4, 7⟩, .plain 3] (some 7) :=
    ⟨by decide +kernel, by decide +kernel⟩
  have seeded := fun edge (listed : edge ∈ callSeeds.edges) => closed.initial edge listed
  have found := closed.derived _ (List.mem_singleton_self _) 1 _ _ 1 5 (by decide +kernel) (by decide +kernel)
    carries ⟨2, seeded _ (by decide), 3, seeded _ (by decide), 4, seeded _ (by decide), 5,
      seeded _ (by decide), rfl⟩ (by simp)
  exact ⟨_, result, made, ran, found.1⟩

end Solver

end GrammarReach
