import Mathlib.Data.Finset.Prod
import Mathlib.Data.Finset.Card
import GrammarReach.Proofs.Dataset
import GrammarReach.Solve.Extent

/-!
What a solve has to find: the edges that the productions derive from the seeds.

Reflexive labels are silent: an edge that only a reflexive label puts on a node is there from the
start, but it takes part in a join only together with an edge that was derived, and deriving it once
more changes nothing. `Solution` is the set of silent and derived edges.
-/

namespace GrammarReach

namespace Grammar

variable (grammar : Grammar)

@[simp] theorem symbol_label (symbol : Symbol) (index : Nat) :
    (grammar.label symbol index).symbol = symbol := by
  unfold label
  split <;> rfl

theorem index_label (symbol : Symbol) (index : Nat) :
    (grammar.label symbol index).index = 0 ∨ (grammar.label symbol index).index = index := by
  unfold label
  split
  · exact .inr rfl
  · exact .inl rfl

/-- A symbol that bears no index gets a plain label. -/
theorem label_of_not_isVariant {symbol : Symbol} (plain : grammar.isVariant symbol = false)
    (index : Nat) : grammar.label symbol index = .plain symbol := by
  simp [label, plain]

@[simp] theorem symbol_inherit (lhs : Symbol) (index? : Option Nat) :
    (grammar.inherit lhs index?).symbol = lhs := by
  cases index? <;> simp [inherit, Label.plain]

theorem index_inherit (lhs : Symbol) (index? : Option Nat) :
    (grammar.inherit lhs index?).index = 0 ∨ index? = some (grammar.inherit lhs index?).index := by
  cases index? with
  | none => exact .inl rfl
  | some index =>
    rcases grammar.index_label lhs index with zero | same
    · exact .inl zero
    · exact .inr (congrArg some same.symm)

theorem inherit_of_not_isVariant {lhs : Symbol} (plain : grammar.isVariant lhs = false)
    (index? : Option Nat) : grammar.inherit lhs index? = .plain lhs := by
  cases index? with
  | none => rfl
  | some index => exact grammar.label_of_not_isVariant plain index

theorem mem_derivedUnary (label derived : Label) :
    derived ∈ grammar.derivedUnary label ↔
      ∃ rule ∈ grammar.unary, rule.rhs = label.symbol ∧ rule.lhs ≠ Symbol.fault ∧
        derived = grammar.inherit rule.lhs (grammar.ownIndex? label) := by
  simp only [derivedUnary, List.mem_map, List.mem_filter, Bool.and_eq_true, beq_iff_eq, bne_iff_ne,
    and_assoc]
  exact exists_congr fun rule => and_congr_right fun _ => and_congr_right fun _ =>
    and_congr_right fun _ => eq_comm

theorem mem_derivedBinary (left right derived : Label) :
    derived ∈ grammar.derivedBinary left right ↔
      grammar.agree left right ∧ ∃ rule ∈ grammar.binary, rule.left = left.symbol ∧
        rule.right = right.symbol ∧ rule.lhs ≠ Symbol.fault ∧
        derived = grammar.inherit rule.lhs
          ((grammar.ownIndex? left).or (grammar.ownIndex? right)) := by
  unfold derivedBinary
  split
  · next agree =>
    simp only [agree, true_and, List.mem_map, List.mem_filter, Bool.and_eq_true, beq_iff_eq,
      bne_iff_ne, and_assoc]
    exact exists_congr fun rule => and_congr_right fun _ => and_congr_right fun _ =>
      and_congr_right fun _ => and_congr_right fun _ => eq_comm
  · next differ => simp [differ]

/-- The index beside a symbol that bears none does not count. -/
theorem derivedBinary_congr_right {right other : Label} (same : right.symbol = other.symbol)
    (plain : grammar.isVariant other.symbol = false) (left : Label) :
    grammar.derivedBinary left right = grammar.derivedBinary left other := by
  simp [derivedBinary, agree, ownIndex?, plain, same]

theorem derivedBinary_congr_left {left other : Label} (same : left.symbol = other.symbol)
    (plain : grammar.isVariant other.symbol = false) (right : Label) :
    grammar.derivedBinary left right = grammar.derivedBinary other right := by
  simp [derivedBinary, agree, ownIndex?, plain, same]

theorem not_isFault_of_mem_derivedUnary {label derived : Label}
    (member : derived ∈ grammar.derivedUnary label) : ¬ derived.isFault := by
  obtain ⟨rule, -, -, sound, rfl⟩ := (grammar.mem_derivedUnary label derived).mp member
  simpa [isFault_iff] using sound

theorem not_isFault_of_mem_derivedBinary {left right derived : Label}
    (member : derived ∈ grammar.derivedBinary left right) : ¬ derived.isFault := by
  obtain ⟨-, rule, -, -, -, sound, rfl⟩ := (grammar.mem_derivedBinary left right derived).mp member
  simpa [isFault_iff] using sound

/-- A label bears no index unless its symbol is variant. -/
def Plain (grammar : Grammar) (label : Label) : Prop :=
  grammar.isVariant label.symbol = false → label = .plain label.symbol

theorem plain_of_index {label : Label} (zero : grammar.isVariant label.symbol = false → label.index = 0) :
    grammar.Plain label := by
  intro unvaried
  obtain ⟨symbol, index⟩ := label
  obtain rfl : index = 0 := zero unvaried
  rfl

theorem plain_inherit (grammar : Grammar) (lhs : Symbol) (index? : Option Nat) :
    grammar.Plain (grammar.inherit lhs index?) := by
  intro unvaried
  rw [symbol_inherit] at unvaried ⊢
  exact grammar.inherit_of_not_isVariant unvaried index?

theorem plain_of_mem_derivedUnary {label derived : Label}
    (member : derived ∈ grammar.derivedUnary label) : grammar.Plain derived := by
  obtain ⟨rule, -, -, -, rfl⟩ := (grammar.mem_derivedUnary label derived).mp member
  exact grammar.plain_inherit _ _

theorem plain_of_mem_derivedBinary {left right derived : Label}
    (member : derived ∈ grammar.derivedBinary left right) : grammar.Plain derived := by
  obtain ⟨-, rule, -, -, -, -, rfl⟩ := (grammar.mem_derivedBinary left right derived).mp member
  exact grammar.plain_inherit _ _

end Grammar

namespace SeedGraph

/-- The edges that a solve starts from: the seed edges and those of the empty productions. -/
def Initial (seeds : SeedGraph) (grammar : Grammar) (edge : Edge) : Prop :=
  ¬ edge.label.isFault ∧ (edge ∈ seeds.edges ∨
    ∃ node ∈ seeds.nodes, ∃ symbol ∈ grammar.nullable, edge = ⟨node, node, .plain symbol⟩)

/-- The edges that nothing but a reflexive label puts on a node. -/
def Silent (seeds : SeedGraph) (grammar : Grammar) (edge : Edge) : Prop :=
  ¬ edge.label.isFault ∧ ¬ seeds.Initial grammar edge ∧
    ∃ node ∈ seeds.nodes, ∃ label ∈ seeds.reflexive, edge = ⟨node, node, label⟩

theorem Silent.loop {seeds : SeedGraph} {grammar : Grammar} {edge : Edge}
    (silent : seeds.Silent grammar edge) : edge.src = edge.dst := by
  obtain ⟨-, -, node, -, label, -, rfl⟩ := silent
  rfl

theorem not_silent_of_none {seeds : SeedGraph} (none : seeds.reflexive = []) (grammar : Grammar)
    (edge : Edge) : ¬ seeds.Silent grammar edge := by
  rintro ⟨-, -, node, -, label, reflexive, -⟩
  simp [none] at reflexive

/-- The least set of edges that holds the initial ones and, unless they are silent, all that a
production derives from one of its edges, and from two adjacent edges of which at least one is in the
set and the other is in the set or silent. -/
inductive Derives (seeds : SeedGraph) (grammar : Grammar) : Edge → Prop
  | initial {edge : Edge} : seeds.Initial grammar edge → Derives seeds grammar edge
  | alone {edge : Edge} {label : Label} : Derives seeds grammar edge →
      label ∈ grammar.derivedUnary edge.label →
      ¬ seeds.Silent grammar ⟨edge.src, edge.dst, label⟩ →
      Derives seeds grammar ⟨edge.src, edge.dst, label⟩
  | both {left right : Edge} {label : Label} : Derives seeds grammar left →
      Derives seeds grammar right → left.dst = right.src →
      label ∈ grammar.derivedBinary left.label right.label →
      ¬ seeds.Silent grammar ⟨left.src, right.dst, label⟩ →
      Derives seeds grammar ⟨left.src, right.dst, label⟩
  | beforeSilent {left right : Edge} {label : Label} : Derives seeds grammar left →
      seeds.Silent grammar right → left.dst = right.src →
      label ∈ grammar.derivedBinary left.label right.label →
      ¬ seeds.Silent grammar ⟨left.src, right.dst, label⟩ →
      Derives seeds grammar ⟨left.src, right.dst, label⟩
  | behindSilent {left right : Edge} {label : Label} : seeds.Silent grammar left →
      Derives seeds grammar right → left.dst = right.src →
      label ∈ grammar.derivedBinary left.label right.label →
      ¬ seeds.Silent grammar ⟨left.src, right.dst, label⟩ →
      Derives seeds grammar ⟨left.src, right.dst, label⟩

/-- The silent edges and the derived ones. -/
def Solution (seeds : SeedGraph) (grammar : Grammar) (edge : Edge) : Prop :=
  seeds.Silent grammar edge ∨ seeds.Derives grammar edge

variable {seeds : SeedGraph} {grammar : Grammar}

theorem Derives.not_silent {edge : Edge} (derived : seeds.Derives grammar edge) :
    ¬ seeds.Silent grammar edge := by
  cases derived with
  | initial start => exact fun silent => silent.2.1 start
  | alone _ _ audible => exact audible
  | both _ _ _ _ audible => exact audible
  | beforeSilent _ _ _ _ audible => exact audible
  | behindSilent _ _ _ _ audible => exact audible

theorem Solution.derives {edge : Edge} (inside : seeds.Solution grammar edge)
    (audible : ¬ seeds.Silent grammar edge) : seeds.Derives grammar edge :=
  inside.resolve_left audible

/-- Where nothing is reflexive, the solution is what the seeds derive. -/
theorem solution_iff_derives (none : seeds.reflexive = []) (edge : Edge) :
    seeds.Solution grammar edge ↔ seeds.Derives grammar edge :=
  or_iff_right (not_silent_of_none none grammar edge)

theorem Solution.alone {edge : Edge} (inside : seeds.Solution grammar edge)
    (audible : ¬ seeds.Silent grammar edge) {label : Label}
    (derived : label ∈ grammar.derivedUnary edge.label) :
    seeds.Solution grammar ⟨edge.src, edge.dst, label⟩ := by
  by_cases silent : seeds.Silent grammar ⟨edge.src, edge.dst, label⟩
  · exact .inl silent
  · exact .inr (.alone (inside.derives audible) derived silent)

theorem Solution.join {left right : Edge} (first : seeds.Solution grammar left)
    (second : seeds.Solution grammar right)
    (audible : ¬ seeds.Silent grammar left ∨ ¬ seeds.Silent grammar right)
    (meets : left.dst = right.src) {label : Label}
    (derived : label ∈ grammar.derivedBinary left.label right.label) :
    seeds.Solution grammar ⟨left.src, right.dst, label⟩ := by
  by_cases silent : seeds.Silent grammar ⟨left.src, right.dst, label⟩
  · exact .inl silent
  · rcases first with silentLeft | first
    · have second := second.derives (audible.resolve_left (not_not.mpr silentLeft))
      exact .inr (.behindSilent silentLeft second meets derived silent)
    · rcases second with silentRight | second
      · exact .inr (.beforeSilent first silentRight meets derived silent)
      · exact .inr (.both first second meets derived silent)

/-- Every set of edges that holds the solution's starting points and is closed under its rules holds
the solution. -/
theorem Derives.least {closed : Edge → Prop}
    (initial : ∀ edge, seeds.Initial grammar edge → closed edge)
    (silent : ∀ edge, seeds.Silent grammar edge → closed edge)
    (alone : ∀ edge, closed edge → ¬ seeds.Silent grammar edge →
      ∀ label ∈ grammar.derivedUnary edge.label, closed ⟨edge.src, edge.dst, label⟩)
    (join : ∀ left right, closed left → closed right →
      (¬ seeds.Silent grammar left ∨ ¬ seeds.Silent grammar right) → left.dst = right.src →
      ∀ label ∈ grammar.derivedBinary left.label right.label, closed ⟨left.src, right.dst, label⟩)
    {edge : Edge} (derived : seeds.Derives grammar edge) : closed edge := by
  induction derived with
  | initial start => exact initial _ start
  | alone before rule _ ih => exact alone _ ih before.not_silent _ rule
  | both first _ meets rule _ ihLeft ihRight =>
    exact join _ _ ihLeft ihRight (.inl first.not_silent) meets _ rule
  | beforeSilent first quiet meets rule _ ih =>
    exact join _ _ ih (silent _ quiet) (.inl first.not_silent) meets _ rule
  | behindSilent quiet second meets rule _ ih =>
    exact join _ _ (silent _ quiet) ih (.inr second.not_silent) meets _ rule

def mentionedNodes (seeds : SeedGraph) : List Node :=
  seeds.nodes.toList ++ seeds.edges.flatMap fun edge => [edge.src, edge.dst]

/-- The symbols that a stored edge can bear. -/
def mentionedSymbols (seeds : SeedGraph) (grammar : Grammar) (brackets : List BracketRule) :
    List Symbol :=
  seeds.edges.map (·.label.symbol) ++ seeds.reflexive.map (·.symbol) ++ grammar.nullable.toList ++
    grammar.unary.map (·.lhs) ++ grammar.binary.map (·.lhs) ++ brackets.map (·.result)

/-- The indices that a stored edge can bear. -/
def mentionedIndices (seeds : SeedGraph) : List Nat :=
  0 :: (seeds.edges.map (·.label.index) ++ seeds.reflexive.map (·.index))

/-- An edge whose parts all come from the seeds and the productions. -/
structure Within (seeds : SeedGraph) (grammar : Grammar) (brackets : List BracketRule)
    (edge : Edge) : Prop where
  src : edge.src ∈ seeds.mentionedNodes
  dst : edge.dst ∈ seeds.mentionedNodes
  symbol : edge.label.symbol ∈ seeds.mentionedSymbols grammar brackets
  index : edge.label.index ∈ seeds.mentionedIndices

/-- There are no more different edges within the extent than its bound tells. -/
theorem length_le_edgeExtent (seeds : SeedGraph) (grammar : Grammar) (brackets : List BracketRule)
    {edges : List Edge} (distinct : edges.Nodup)
    (inside : ∀ edge ∈ edges, seeds.Within grammar brackets edge) :
    edges.length ≤ seeds.edgeExtent grammar brackets := by
  let parts (edge : Edge) : Node × Node × Symbol × Nat :=
    (edge.src, edge.dst, edge.label.symbol, edge.label.index)
  have injective : Function.Injective parts := by
    rintro ⟨src, dst, symbol, index⟩ ⟨src', dst', symbol', index'⟩ same
    simp_all [parts]
  let box := seeds.mentionedNodes.toFinset ×ˢ seeds.mentionedNodes.toFinset ×ˢ
    (seeds.mentionedSymbols grammar brackets).toFinset ×ˢ seeds.mentionedIndices.toFinset
  have covered : edges.toFinset.image parts ⊆ box := by
    intro part member
    obtain ⟨edge, listed, rfl⟩ := Finset.mem_image.mp member
    have within := inside edge (List.mem_toFinset.mp listed)
    simp only [box, parts, Finset.mem_product, List.mem_toFinset]
    exact ⟨within.src, within.dst, within.symbol, within.index⟩
  have nodes : seeds.mentionedNodes.toFinset.card ≤ seeds.nodeExtent := by
    refine (List.toFinset_card_le _).trans (Nat.le_of_eq ?_)
    simp [mentionedNodes, nodeExtent, List.length_flatMap, Nat.mul_comm]
  have symbols : (seeds.mentionedSymbols grammar brackets).toFinset.card ≤
      seeds.symbolExtent grammar brackets := by
    refine (List.toFinset_card_le _).trans (Nat.le_of_eq ?_)
    simp only [mentionedSymbols, symbolExtent, List.length_append, List.length_map,
      Std.TreeSet.length_toList]
  have indices : seeds.mentionedIndices.toFinset.card ≤ seeds.indexExtent := by
    refine (List.toFinset_card_le _).trans (Nat.le_of_eq ?_)
    simp only [mentionedIndices, indexExtent, List.length_cons, List.length_append, List.length_map]
    omega
  calc edges.length = (edges.toFinset.image parts).card := by
        rw [Finset.card_image_of_injective _ injective, List.toFinset_card_of_nodup distinct]
    _ ≤ box.card := Finset.card_le_card covered
    _ = seeds.mentionedNodes.toFinset.card * (seeds.mentionedNodes.toFinset.card *
        ((seeds.mentionedSymbols grammar brackets).toFinset.card *
          seeds.mentionedIndices.toFinset.card)) := by simp [box, Finset.card_product]
    _ ≤ seeds.nodeExtent * (seeds.nodeExtent *
        (seeds.symbolExtent grammar brackets * seeds.indexExtent)) :=
      Nat.mul_le_mul nodes (Nat.mul_le_mul nodes (Nat.mul_le_mul symbols indices))
    _ = seeds.edgeExtent grammar brackets := by simp [edgeExtent, Nat.mul_assoc]

section Within

variable {brackets : List BracketRule}

theorem within_initial {edge : Edge} (start : seeds.Initial grammar edge) :
    seeds.Within grammar brackets edge := by
  obtain ⟨-, listed | ⟨node, member, symbol, nullable, rfl⟩⟩ := start
  · have here : ∀ node ∈ [edge.src, edge.dst], node ∈ seeds.mentionedNodes := fun node end' =>
      List.mem_append_right _ (List.mem_flatMap.mpr ⟨edge, listed, end'⟩)
    refine ⟨here _ (by simp), here _ (by simp), ?_, ?_⟩
    · simp only [mentionedSymbols, List.append_assoc, List.mem_append]
      exact .inl (List.mem_map_of_mem listed)
    · exact List.mem_cons_of_mem _ (List.mem_append_left _ (List.mem_map_of_mem listed))
  · have here : node ∈ seeds.mentionedNodes :=
      List.mem_append_left _ (Std.TreeSet.mem_toList.mpr member)
    refine ⟨here, here, ?_, by simp [mentionedIndices, Label.plain]⟩
    simp only [mentionedSymbols, List.append_assoc, List.mem_append, Std.TreeSet.mem_toList]
    exact .inr (.inr (.inl nullable))

theorem within_silent {edge : Edge} (silent : seeds.Silent grammar edge) :
    seeds.Within grammar brackets edge := by
  obtain ⟨-, -, node, member, label, reflexive, rfl⟩ := silent
  have here : node ∈ seeds.mentionedNodes :=
    List.mem_append_left _ (Std.TreeSet.mem_toList.mpr member)
  refine ⟨here, here, ?_, ?_⟩
  · simp only [mentionedSymbols, List.append_assoc, List.mem_append]
    exact .inr (.inl (List.mem_map_of_mem reflexive))
  · exact List.mem_cons_of_mem _ (List.mem_append_right _ (List.mem_map_of_mem reflexive))

/-- A label that inherits its index from a label within the extent stays within it. -/
private theorem index_within {lhs : Symbol} {index? : Option Nat}
    (known : ∀ index, index? = some index → index ∈ seeds.mentionedIndices) :
    (grammar.inherit lhs index?).index ∈ seeds.mentionedIndices := by
  rcases grammar.index_inherit lhs index? with zero | same
  · simp [zero, mentionedIndices]
  · exact known _ same

private theorem ownIndex_within {label : Label} {index : Nat}
    (known : label.index ∈ seeds.mentionedIndices) (own : grammar.ownIndex? label = some index) :
    index ∈ seeds.mentionedIndices := by
  unfold Grammar.ownIndex? at own
  split at own
  · obtain rfl := Option.some.inj own
    exact known
  · simp at own

theorem Within.alone {edge : Edge} (inside : seeds.Within grammar brackets edge) {label : Label}
    (derived : label ∈ grammar.derivedUnary edge.label) :
    seeds.Within grammar brackets ⟨edge.src, edge.dst, label⟩ := by
  obtain ⟨rule, listed, -, -, rfl⟩ := (grammar.mem_derivedUnary _ _).mp derived
  refine ⟨inside.src, inside.dst, ?_, index_within fun index own =>
    ownIndex_within inside.index own⟩
  simp only [mentionedSymbols, List.append_assoc, List.mem_append, Grammar.symbol_inherit]
  exact .inr (.inr (.inr (.inl (List.mem_map_of_mem listed))))

theorem Within.join {left right : Edge} (first : seeds.Within grammar brackets left)
    (second : seeds.Within grammar brackets right) {label : Label}
    (derived : label ∈ grammar.derivedBinary left.label right.label) :
    seeds.Within grammar brackets ⟨left.src, right.dst, label⟩ := by
  obtain ⟨-, rule, listed, -, -, -, rfl⟩ := (grammar.mem_derivedBinary _ _ _).mp derived
  refine ⟨first.src, second.dst, ?_, index_within fun index own => ?_⟩
  · simp only [mentionedSymbols, List.append_assoc, List.mem_append, Grammar.symbol_inherit]
    exact .inr (.inr (.inr (.inr (.inl (List.mem_map_of_mem listed)))))
  · rcases Option.or_eq_some_iff.mp own with left | ⟨-, right⟩
    · exact ownIndex_within first.index left
    · exact ownIndex_within second.index right

/-- A shortcut between two edges within the extent stays within it. -/
theorem Within.shortcut {opening closing : Edge} (first : seeds.Within grammar brackets opening)
    (second : seeds.Within grammar brackets closing) {rule : BracketRule} (listed : rule ∈ brackets) :
    seeds.Within grammar brackets ⟨opening.src, closing.dst, .plain rule.result⟩ := by
  refine ⟨first.src, second.dst, ?_, List.mem_cons_self⟩
  simp only [mentionedSymbols, List.mem_append]
  exact .inr (List.mem_map_of_mem listed)

/-- A solution stays within the extent of the seeds. -/
theorem Solution.within {edge : Edge} (inside : seeds.Solution grammar edge) :
    seeds.Within grammar brackets edge := by
  rcases inside with silent | derived
  · exact within_silent silent
  · exact derived.least (fun _ => within_initial) (fun _ => within_silent)
      (fun _ inside _ _ rule => inside.alone rule)
      (fun _ _ first second _ _ _ rule => first.join second rule)

end Within

end SeedGraph

end GrammarReach
