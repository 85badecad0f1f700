import GrammarReach.Analysis.Alias
import GrammarReach.Proofs.Analysis.Basic
import GrammarReach.Proofs.Graph.Kinds
import GrammarReach.Proofs.Simplify.Collapse

/-!
What the alias analysis computes: two nodes may be aliases when one can get from the first to the
second backwards along assignments, over at most one pair of memory or field accesses whose bases may
be aliases, and forwards along assignments, where memory aliases may come in before each step back and
after each step forth.
-/

namespace GrammarReach.Alias

open Relation (ReflTransGen)

/-! ### The grammar -/

inductive Role where
  | mayAlias
  | matched
  | assignedBar
  | assigned
  | accessed
  | field
  | dereferenced
  | deref
  | derefBar
  | fieldBar
  | assign
  | assignBar
deriving DecidableEq

namespace Role

def symbol : Role → Symbol
  | mayAlias => Alias.mayAlias
  | matched => Alias.matched
  | assignedBar => Alias.assignedBar
  | assigned => Alias.assigned
  | accessed => Alias.symbol "FV_i"
  | field => Alias.field
  | dereferenced => Alias.symbol "DV"
  | deref => Alias.deref
  | derefBar => Alias.derefBar
  | fieldBar => Alias.fieldBar
  | assign => Alias.assign
  | assignBar => Alias.assignBar

/-- The roles are listed in the order in which their symbols were declared. -/
theorem symbol_eq (role : Role) : role.symbol = role.ctorIdx + 1 := by
  cases role <;> decide +kernel

theorem symbol_injective : Function.Injective symbol := by
  intro first second same
  rw [symbol_eq, symbol_eq, Nat.add_right_cancel_iff] at same
  rw [← Role.ofNat_ctorIdx first, same, Role.ofNat_ctorIdx]

theorem symbol_ne_fault (role : Role) : role.symbol ≠ Symbol.fault := by
  cases role <;> decide +kernel

def isVariant : Role → Bool
  | accessed | field | fieldBar => true
  | _ => false

theorem isVariant_symbol (role : Role) : grammar.isVariant role.symbol = role.isVariant := by
  cases role <;> decide +kernel

/-- Whether every node has an edge of a role to itself. -/
def isReflexive : Role → Bool
  | assigned | assignedBar => true
  | _ => false

def label (role : Role) (index : Nat) : Label := grammar.label role.symbol index

@[simp] theorem symbol_label (role : Role) (index : Nat) : (role.label index).symbol = role.symbol :=
  grammar.symbol_label _ _

theorem label_of_not_isVariant {role : Role} (plain : role.isVariant = false) (index : Nat) :
    role.label index = .plain role.symbol :=
  grammar.label_of_not_isVariant ((isVariant_symbol role).trans plain) index

theorem label_of_isVariant {role : Role} (varies : role.isVariant) (index : Nat) :
    role.label index = ⟨role.symbol, index⟩ := by
  rw [label, Grammar.label, isVariant_symbol, if_pos varies]

theorem ownIndex?_label (role : Role) (index : Nat) :
    grammar.ownIndex? (role.label index) = if role.isVariant then some index else none := by
  rw [Grammar.ownIndex?, symbol_label, isVariant_symbol]
  split
  · next varies => rw [label_of_isVariant varies]
  · rfl

/-- Labels with one index agree. -/
theorem agree_label (left right : Role) (index : Nat) :
    grammar.agree (left.label index) (right.label index) := by
  rw [Grammar.agree, symbol_label, symbol_label, isVariant_symbol, isVariant_symbol]
  by_cases varies : left.isVariant ∧ right.isVariant
  · rw [label_of_isVariant varies.1, label_of_isVariant varies.2]
    simp
  · rw [← Bool.and_eq_true, Bool.not_eq_true] at varies
    simp [varies]

theorem inherit_label {lhs : Role} {index : Nat} {index? : Option Nat}
    (inherits : lhs.isVariant → index? = some index) :
    grammar.inherit lhs.symbol index? = lhs.label index := by
  by_cases varies : lhs.isVariant
  · rw [inherits varies]
    rfl
  · rw [Bool.not_eq_true] at varies
    rw [label_of_not_isVariant varies]
    exact grammar.inherit_of_not_isVariant ((isVariant_symbol lhs).trans varies) _

/-- What is joined from two labels with one index bears it, too. -/
theorem inherit_join {lhs left right : Role} (inherits : lhs.isVariant → left.isVariant ∨ right.isVariant)
    (index : Nat) : grammar.inherit lhs.symbol
      ((grammar.ownIndex? (left.label index)).or (grammar.ownIndex? (right.label index))) =
        lhs.label index := by
  refine inherit_label fun varies => ?_
  rw [ownIndex?_label, ownIndex?_label]
  obtain here | here := inherits varies
  · simp [here]
  · by_cases also : left.isVariant <;> simp [here, also]

end Role

def unaryRule (lhs rhs : Role) : UnaryRule := ⟨lhs.symbol, rhs.symbol⟩

def binaryRule (lhs left right : Role) : BinaryRule := ⟨lhs.symbol, left.symbol, right.symbol⟩

theorem unary_grammar : grammar.unary =
    [unaryRule .mayAlias .matched, unaryRule .assigned .assign,
      unaryRule .assignedBar .assignBar] := by
  decide +kernel

theorem binary_grammar : grammar.binary =
    [binaryRule .mayAlias .assignedBar .mayAlias, binaryRule .mayAlias .mayAlias .assigned,
      binaryRule .mayAlias .accessed .field, binaryRule .matched .dereferenced .deref,
      binaryRule .dereferenced .derefBar .mayAlias, binaryRule .accessed .fieldBar .mayAlias,
      binaryRule .assigned .assigned .assigned, binaryRule .assigned .assign .matched,
      binaryRule .assignedBar .assignedBar .assignedBar,
      binaryRule .assignedBar .matched .assignBar] := by
  decide +kernel

theorem mem_nullable_grammar (symbol : Symbol) : symbol ∈ grammar.nullable ↔ symbol = mayAlias := by
  have whole : grammar.nullable.toList = [mayAlias] := by decide +kernel
  rw [← Std.TreeSet.mem_toList, whole, List.mem_singleton]

theorem built_grammar : grammar.Built := Grammar.Built.empty.addRules _

/-! ### Graphs -/

def IsKind (kind : Kind) : Prop := kind = assign ∨ kind = deref ∨ kind = field

/-- The graphs that can be built for the analysis. -/
abbrev Built : Multigraph → Prop := Multigraph.Assembled assign IsKind

/-- Only assignments are direct, and apart from them there are dereferences and field accesses. -/
abbrev WellFormed (graph : Multigraph) : Prop := graph.OfKinds assign IsKind

theorem deref_ne_assign : deref ≠ assign := by decide +kernel

theorem field_ne_assign : field ≠ assign := by decide +kernel

/-- What is read from a text is the analysis of such a graph. -/
theorem built_of_read {text : String} {made : Analysis} (reads : read text = .ok made) :
    ∃ graph, Built graph ∧ made = analysis graph := by
  have kinds : ∀ label kind, format.edgeKind? grammar label = some kind → IsKind kind := by
    intro label kind found
    simp only [EdgeListFormat.edgeKind?, format, Option.all_some, Option.ite_none_right_eq_some,
      List.contains_iff_mem, List.mem_cons, List.not_mem_nil, or_false] at found
    obtain ⟨rfl | rfl | rfl, declared⟩ := found
    · exact .inl (by rw [assign, symbol, declared]; rfl)
    · exact .inr (.inl (by rw [deref, symbol, declared]; rfl))
    · exact .inr (.inr (by rw [field, symbol, declared]; rfl))
  have known : format.direct.mapM grammar.lookup = .ok [assign] := by
    have declared : grammar.find? "a" = some assign := by decide +kernel
    simp [format, Grammar.lookup, declared, bind, Except.bind, pure, Except.pure]
  cases parsed : format.read grammar text with
  | error fault => simp [read, parsed, bind, Except.bind] at reads
  | ok graph =>
    simp only [read, parsed, bind, Except.bind, pure, Except.pure, Except.ok.injEq] at reads
    exact ⟨graph, EdgeListFormat.assembled_of_read kinds known parsed, reads.symm⟩

/-! ### Aliases -/

/-- Some dereference leads from one node to another. -/
def Derefs (graph : Multigraph) (src dst : Node) : Prop :=
  ∃ index, graph.hasEdge ⟨src, dst, ⟨deref, index⟩⟩

/-- Two nodes may be aliases. -/
inductive Aliases (graph : Multigraph) : Node → Node → Prop
  | refl {node : Node} : graph.hasNode node → Aliases graph node node
  | deref {base other src dst : Node} : Derefs graph base src → Aliases graph base other →
      Derefs graph other dst → Aliases graph src dst
  | field {base other src dst : Node} {index : Nat} :
      graph.hasEdge ⟨base, src, ⟨field, index⟩⟩ → Aliases graph base other →
      graph.hasEdge ⟨other, dst, ⟨field, index⟩⟩ → Aliases graph src dst
  | forth {src middle dst : Node} : Aliases graph src middle → graph.Straight middle dst →
      Aliases graph src dst
  | forthDeref {src middle next base other dst : Node} : Aliases graph src middle →
      graph.Straight middle next → Derefs graph base next → Aliases graph base other →
      Derefs graph other dst → Aliases graph src dst
  | back {src middle dst : Node} : graph.Straight middle src → Aliases graph middle dst →
      Aliases graph src dst
  | backDeref {src base other next middle dst : Node} : Derefs graph base src →
      Aliases graph base other → Derefs graph other next → graph.Straight middle next →
      Aliases graph middle dst → Aliases graph src dst

/-- Two nodes are loaded from bases that may be aliases. -/
def Memory (graph : Multigraph) (src dst : Node) : Prop :=
  ∃ base other, Derefs graph base src ∧ Aliases graph base other ∧ Derefs graph other dst

/-- One node is assigned to another, or to a memory alias of it. -/
def Assigns (graph : Multigraph) (src dst : Node) : Prop :=
  graph.Straight src dst ∨ ∃ next, graph.Straight src next ∧ Memory graph next dst

variable {graph : Multigraph} {src middle dst : Node}

theorem Aliases.symm (aliases : Aliases graph src dst) : Aliases graph dst src := by
  induction aliases with
  | refl live => exact .refl live
  | deref opens _ closes ih => exact .deref closes ih opens
  | field opens _ closes ih => exact .field closes ih opens
  | forth _ straight ih => exact .back straight ih
  | forthDeref _ straight opens _ closes ih inner => exact .backDeref closes inner opens straight ih
  | back straight _ ih => exact .forth ih straight
  | backDeref opens _ closes straight _ inner ih => exact .forthDeref ih straight closes inner opens

theorem Memory.aliases (memory : Memory graph src dst) : Aliases graph src dst :=
  have ⟨_, _, opens, aliases, closes⟩ := memory
  .deref opens aliases closes

theorem Memory.symm (memory : Memory graph src dst) : Memory graph dst src := by
  obtain ⟨base, other, opens, aliases, closes⟩ := memory
  exact ⟨other, base, closes, aliases.symm, opens⟩

theorem Aliases.forth_all (aliases : Aliases graph src middle)
    (path : ReflTransGen (Assigns graph) middle dst) : Aliases graph src dst := by
  induction path with
  | refl => exact aliases
  | tail _ step ih =>
    obtain straight | ⟨next, straight, base, other, opens, inner, closes⟩ := step
    · exact ih.forth straight
    · exact ih.forthDeref straight opens inner closes

theorem Aliases.back_all (path : ReflTransGen (Assigns graph) middle src)
    (aliases : Aliases graph middle dst) : Aliases graph src dst :=
  (aliases.symm.forth_all path).symm

/-! ### Meanings -/

/-- What an edge of a role says about the graph. -/
def Role.Denotes (graph : Multigraph) (src dst : Node) (index : Nat) : Role → Prop
  | mayAlias => Aliases graph src dst
  | matched => Memory graph src dst
  | assignedBar => ReflTransGen (Assigns graph) dst src
  | assigned => ReflTransGen (Assigns graph) src dst
  | accessed => ∃ base, graph.hasEdge ⟨base, src, ⟨Alias.field, index⟩⟩ ∧ Aliases graph base dst
  | field => graph.hasEdge ⟨src, dst, ⟨Alias.field, index⟩⟩
  | dereferenced => ∃ base, Derefs graph base src ∧ Aliases graph base dst
  | deref => Derefs graph src dst
  | derefBar => Derefs graph dst src
  | fieldBar => graph.hasEdge ⟨dst, src, ⟨Alias.field, index⟩⟩
  | assign => graph.Straight src dst
  | assignBar => graph.Straight dst src

/-- A label bears its index where the meaning depends on it. -/
theorem Role.denotes_label (role : Role) (index : Nat) :
    role.Denotes graph src dst (role.label index).index ↔ role.Denotes graph src dst index := by
  by_cases varies : role.isVariant
  · rw [label_of_isVariant varies]
  · cases role <;> first | exact Iff.rfl | exact absurd rfl varies

def Means (graph : Multigraph) (edge : Edge) : Prop :=
  ∀ role : Role, role.symbol = edge.label.symbol →
    role.Denotes graph edge.src edge.dst edge.label.index

theorem Means.of {edge : Edge} (role : Role) (same : role.symbol = edge.label.symbol)
    (holds : role.Denotes graph edge.src edge.dst edge.label.index) : Means graph edge := by
  intro other equal
  rwa [Role.symbol_injective (equal.trans same.symm)]

/-! ### Seeds -/

theorem mem_edges_seeds (formed : WellFormed graph) (seed : Edge) :
    seed ∈ (analysis graph).seeds.edges ↔ ∃ edge, graph.hasEdge edge ∧ seed ∈ seedEdges edge :=
  Analysis.mem_edges_seeds (analysis graph) formed.valid seed

theorem reflexive_seeds (graph : Multigraph) :
    (analysis graph).seeds.reflexive = [.plain assigned, .plain assignedBar] :=
  Analysis.reflexive_seeds _

theorem bar?_symbol : bar? Role.assign.symbol = some Role.assignBar.symbol ∧
    bar? Role.deref.symbol = some Role.derefBar.symbol ∧
    bar? Role.field.symbol = some Role.fieldBar.symbol := by
  decide +kernel

/-- An edge is a seed both ways. -/
theorem seedEdges_eq {role bar : Role} (barred : bar? role.symbol = some bar.symbol)
    (src dst : Node) (index : Nat) : seedEdges ⟨src, dst, ⟨role.symbol, index⟩⟩ =
      [⟨src, dst, role.label index⟩, ⟨dst, src, bar.label index⟩] := by
  rw [seedEdges, barred]
  rfl

theorem mem_nodes_seeds (formed : WellFormed graph) (node : Node) :
    node ∈ (analysis graph).seeds.nodes ↔ graph.hasNode node := by
  refine Analysis.mem_nodes_seeds (analysis graph) formed.valid (fun edge seed listed => ?_) node
  change seed ∈ seedEdges edge at listed
  rw [seedEdges] at listed
  split at listed
  · cases listed
  · simp only [List.mem_cons, List.not_mem_nil, or_false] at listed
    obtain rfl | rfl := listed
    · exact ⟨.inl rfl, .inr rfl⟩
    · exact ⟨.inr rfl, .inl rfl⟩

/-- The seeds of an edge are edges of roles. -/
theorem exists_role (formed : WellFormed graph) {seed : Edge}
    (listed : seed ∈ (analysis graph).seeds.edges) :
    ∃ role : Role, ∃ index, role.isReflexive = false ∧ seed.label = role.label index ∧
      role.Denotes graph seed.src seed.dst index := by
  obtain ⟨edge, there, listed⟩ := (mem_edges_seeds formed seed).mp listed
  have kind := formed.kinds edge there
  obtain ⟨src, dst, ⟨symbol, index⟩⟩ := edge
  obtain ⟨assigns, derefs, accesses⟩ := bar?_symbol
  have straight : symbol = assign → graph.Straight src dst := fun same =>
    ⟨⟨symbol, index⟩, there, (formed.direct symbol).mpr same⟩
  obtain rfl | rfl | rfl : symbol = assign ∨ symbol = deref ∨ symbol = field := kind
  · obtain rfl | rfl := List.mem_pair.mp ((seedEdges_eq assigns src dst index) ▸ listed)
    · exact ⟨.assign, index, rfl, rfl, straight rfl⟩
    · exact ⟨.assignBar, index, rfl, rfl, straight rfl⟩
  · obtain rfl | rfl := List.mem_pair.mp ((seedEdges_eq derefs src dst index) ▸ listed)
    · exact ⟨.deref, index, rfl, rfl, index, there⟩
    · exact ⟨.derefBar, index, rfl, rfl, index, there⟩
  · obtain rfl | rfl := List.mem_pair.mp ((seedEdges_eq accesses src dst index) ▸ listed)
    · exact ⟨.field, index, rfl, rfl, there⟩
    · exact ⟨.fieldBar, index, rfl, rfl, there⟩

theorem indexedBy_seeds (formed : WellFormed graph) : (analysis graph).seeds.IndexedBy grammar where
  edges seed listed plain := by
    obtain ⟨role, index, -, same, -⟩ := exists_role formed listed
    rw [same, role.symbol_label, role.isVariant_symbol] at plain
    rw [same, Role.label_of_not_isVariant plain]
    rfl
  reflexive label listed _ := by
    rw [reflexive_seeds, List.mem_pair] at listed
    obtain rfl | rfl := listed <;> rfl

/-- Only the reflexive labels are silent. -/
theorem not_silent {role : Role} (loud : role.isReflexive = false) (src dst : Node) (index : Nat) :
    ¬ (analysis graph).seeds.Silent grammar ⟨src, dst, role.label index⟩ := by
  rintro ⟨-, -, node, -, label, reflexive, same⟩
  rw [reflexive_seeds, List.mem_pair] at reflexive
  have symbol : role.symbol = label.symbol := by rw [← (Edge.mk.inj same).2.2, role.symbol_label]
  obtain rfl | rfl := reflexive
  · have same : role = .assigned := Role.symbol_injective symbol
    simp [same, Role.isReflexive] at loud
  · have same : role = .assignedBar := Role.symbol_injective symbol
    simp [same, Role.isReflexive] at loud

/-! ### Soundness -/

/-- What a unary production derives means what it should. -/
private theorem means_unary {edge : Edge} (means : Means graph edge) {label : Label}
    (rule : label ∈ grammar.derivedUnary edge.label) : Means graph ⟨edge.src, edge.dst, label⟩ := by
  obtain ⟨found, listed, kind, -, rfl⟩ := (grammar.mem_derivedUnary _ _).mp rule
  have own : ∀ lhs : Role, lhs.symbol =
      (grammar.inherit lhs.symbol (grammar.ownIndex? edge.label)).symbol := fun lhs =>
    (grammar.symbol_inherit _ _).symm
  rw [unary_grammar] at listed
  simp only [List.mem_cons, List.not_mem_nil, or_false] at listed
  obtain rfl | rfl | rfl := listed
  · have memory : Memory graph edge.src edge.dst := means .matched kind
    exact .of .mayAlias (own _) memory.aliases
  · have straight : graph.Straight edge.src edge.dst := means .assign kind
    exact .of .assigned (own _) (.single (.inl straight))
  · have straight : graph.Straight edge.dst edge.src := means .assignBar kind
    exact .of .assignedBar (own _) (.single (.inl straight))

/-- What a binary production derives means what it should. -/
private theorem means_binary {left right : Edge} (one : Means graph left) (two : Means graph right)
    (meets : left.dst = right.src) {label : Label}
    (rule : label ∈ grammar.derivedBinary left.label right.label) :
    Means graph ⟨left.src, right.dst, label⟩ := by
  obtain ⟨agree, found, listed, first, second, -, rfl⟩ := (grammar.mem_derivedBinary _ _ _).mp rule
  obtain ⟨src, middle, ⟨symbol, index⟩⟩ := left
  obtain ⟨_, dst, ⟨symbol', index'⟩⟩ := right
  obtain rfl := meets
  have own : ∀ lhs : Role, lhs.symbol = (grammar.inherit lhs.symbol
      ((grammar.ownIndex? ⟨symbol, index⟩).or (grammar.ownIndex? ⟨symbol', index'⟩))).symbol :=
    fun lhs => (grammar.symbol_inherit _ _).symm
  rw [binary_grammar] at listed
  simp only [List.mem_cons, List.not_mem_nil, or_false] at listed
  obtain rfl | rfl | rfl | rfl | rfl | rfl | rfl | rfl | rfl | rfl := listed
  · have path : ReflTransGen (Assigns graph) middle src := one .assignedBar first
    exact .of .mayAlias (own _) (.back_all path (two .mayAlias second))
  · have aliases : Aliases graph src middle := one .mayAlias first
    exact .of .mayAlias (own _) (aliases.forth_all (two .assigned second))
  · obtain ⟨base, opens, aliases⟩ := one .accessed first
    obtain rfl : symbol = Role.accessed.symbol := first.symm
    obtain rfl : symbol' = Role.field.symbol := second.symm
    obtain rfl : index = index' := by
      simpa [Grammar.agree, Role.isVariant_symbol, Role.isVariant] using agree
    exact .of .mayAlias (own _) (.field opens aliases (two .field second))
  · obtain ⟨base, opens, aliases⟩ := one .dereferenced first
    exact .of .matched (own _) ⟨base, middle, opens, aliases, two .deref second⟩
  · exact .of .dereferenced (own _) ⟨middle, one .derefBar first, two .mayAlias second⟩
  · obtain rfl : symbol = Role.fieldBar.symbol := first.symm
    have kept : grammar.inherit Role.accessed.symbol ((grammar.ownIndex? ⟨Role.fieldBar.symbol, index⟩).or
        (grammar.ownIndex? ⟨symbol', index'⟩)) = ⟨Role.accessed.symbol, index⟩ := by
      simp [Grammar.inherit, Grammar.ownIndex?, Grammar.label, Role.isVariant_symbol, Role.isVariant]
    refine .of .accessed (own _) ?_
    change Role.Denotes graph src dst (grammar.inherit Role.accessed.symbol _).index .accessed
    rw [kept]
    exact ⟨middle, one .fieldBar rfl, two .mayAlias second⟩
  · have path : ReflTransGen (Assigns graph) src middle := one .assigned first
    exact .of .assigned (own _) (path.trans (two .assigned second))
  · exact .of .assigned (own _) (.single (.inr ⟨middle, one .assign first, two .matched second⟩))
  · have path : ReflTransGen (Assigns graph) middle src := one .assignedBar first
    have path' : ReflTransGen (Assigns graph) dst middle := two .assignedBar second
    exact .of .assignedBar (own _) (path'.trans path)
  · have memory : Memory graph src middle := one .matched first
    exact .of .assignedBar (own _) (.single (.inr ⟨middle, two .assignBar second, memory.symm⟩))

/-- A reflexive label says that a node is assigned to itself in no steps. -/
private theorem means_of_silent {edge : Edge} (silent : (analysis graph).seeds.Silent grammar edge) :
    Means graph edge := by
  obtain ⟨-, -, node, -, label, reflexive, rfl⟩ := silent
  rw [reflexive_seeds, List.mem_pair] at reflexive
  obtain rfl | rfl := reflexive
  · exact .of .assigned rfl .refl
  · exact .of .assignedBar rfl .refl

/-- Whatever is derived means what it should. -/
theorem means_of_derives (formed : WellFormed graph) {edge : Edge}
    (derived : (analysis graph).seeds.Derives grammar edge) : Means graph edge := by
  refine derived.least ?_ ?_ ?_ ?_
  · rintro edge ⟨-, listed | ⟨node, there, symbol, empty, rfl⟩⟩
    · obtain ⟨role, index, -, same, holds⟩ := exists_role formed listed
      refine .of role (by rw [same, role.symbol_label]) ?_
      rwa [same, role.denotes_label]
    · obtain rfl := (mem_nullable_grammar symbol).mp empty
      exact .of .mayAlias rfl (.refl ((mem_nodes_seeds formed node).mp there))
  · exact fun edge => means_of_silent
  · exact fun edge means _ label rule => means_unary means rule
  · exact fun left right one two _ meets label rule => means_binary one two meets rule

theorem means_of_solution (formed : WellFormed graph) {edge : Edge}
    (inside : (analysis graph).seeds.Solution grammar edge) : Means graph edge :=
  inside.elim means_of_silent (means_of_derives formed)

/-! ### Completeness -/

/-- A production from one role. -/
theorem solution_unary {lhs rhs : Role} (rule : unaryRule lhs rhs ∈ grammar.unary)
    (plain : lhs.isVariant = false) {index : Nat}
    (inside : (analysis graph).seeds.Solution grammar ⟨src, dst, rhs.label index⟩)
    (loud : rhs.isReflexive = false) :
    (analysis graph).seeds.Solution grammar ⟨src, dst, lhs.label index⟩ := by
  refine inside.alone (not_silent loud _ _ _) ((grammar.mem_derivedUnary _ _).mpr
    ⟨_, rule, (rhs.symbol_label index).symm, lhs.symbol_ne_fault, ?_⟩)
  exact (Role.inherit_label fun varies => by simp [plain] at varies).symm

/-- A production from two roles, of which the left-hand side bears an index only when an operand
does. -/
theorem solution_join {lhs left right : Role} (rule : binaryRule lhs left right ∈ grammar.binary)
    (index : Nat) (first : (analysis graph).seeds.Solution grammar ⟨src, middle, left.label index⟩)
    (second : (analysis graph).seeds.Solution grammar ⟨middle, dst, right.label index⟩)
    (inherits : lhs.isVariant → left.isVariant ∨ right.isVariant)
    (audible : ¬ (analysis graph).seeds.Silent grammar ⟨src, middle, left.label index⟩ ∨
      ¬ (analysis graph).seeds.Silent grammar ⟨middle, dst, right.label index⟩) :
    (analysis graph).seeds.Solution grammar ⟨src, dst, lhs.label index⟩ := by
  exact first.join second audible rfl
    ((grammar.mem_derivedBinary _ _ _).mpr ⟨left.agree_label right index, _, rule,
      (left.symbol_label index).symm, (right.symbol_label index).symm, lhs.symbol_ne_fault,
      (Role.inherit_join inherits index).symm⟩)

/-- A production from two roles of which one is not reflexive. -/
private theorem solution_binary {lhs left right : Role} (rule : binaryRule lhs left right ∈ grammar.binary)
    (index : Nat) (first : (analysis graph).seeds.Solution grammar ⟨src, middle, left.label index⟩)
    (second : (analysis graph).seeds.Solution grammar ⟨middle, dst, right.label index⟩)
    (inherits : lhs.isVariant → left.isVariant ∨ right.isVariant)
    (loud : left.isReflexive = false ∨ right.isReflexive = false) :
    (analysis graph).seeds.Solution grammar ⟨src, dst, lhs.label index⟩ :=
  solution_join rule index first second inherits (loud.imp (not_silent · _ _ _) (not_silent · _ _ _))

/-- The seeds of an edge are in the solution. -/
private theorem solution_seed (formed : WellFormed graph) {edge : Edge} (there : graph.hasEdge edge)
    {role bar : Role} (same : edge.label.symbol = role.symbol)
    (barred : bar? role.symbol = some bar.symbol) :
    (analysis graph).seeds.Solution grammar ⟨edge.src, edge.dst, role.label edge.label.index⟩ ∧
      (analysis graph).seeds.Solution grammar ⟨edge.dst, edge.src, bar.label edge.label.index⟩ := by
  obtain ⟨src, dst, ⟨symbol, index⟩⟩ := edge
  obtain rfl : symbol = role.symbol := same
  have listed : ∀ seed ∈ seedEdges ⟨src, dst, ⟨role.symbol, index⟩⟩,
      seed ∈ (analysis graph).seeds.edges := fun seed listed =>
    (mem_edges_seeds formed seed).mpr ⟨_, there, listed⟩
  simp only [seedEdges_eq barred, List.forall_mem_cons] at listed
  refine ⟨.inr (.initial ⟨?_, .inl listed.1⟩), .inr (.initial ⟨?_, .inl listed.2.1⟩)⟩
  · rw [isFault_iff, Role.symbol_label]
    exact role.symbol_ne_fault
  · rw [isFault_iff, Role.symbol_label]
    exact bar.symbol_ne_fault

/-- Where labels bear no index, any one will do. -/
theorem label_congr {role : Role} (plain : role.isVariant = false) (index other : Nat) :
    role.label index = role.label other := by
  rw [Role.label_of_not_isVariant plain, Role.label_of_not_isVariant plain]

private theorem solution_derefs (formed : WellFormed graph) (derefs : Derefs graph src dst) (index : Nat) :
    (analysis graph).seeds.Solution grammar ⟨src, dst, Role.deref.label index⟩ ∧
      (analysis graph).seeds.Solution grammar ⟨dst, src, Role.derefBar.label index⟩ := by
  obtain ⟨own, there⟩ := derefs
  have seeds := solution_seed formed there rfl bar?_symbol.2.1
  rwa [label_congr rfl own index, label_congr rfl own index] at seeds

private theorem solution_straight (formed : WellFormed graph) (straight : graph.Straight src dst)
    (index : Nat) :
    (analysis graph).seeds.Solution grammar ⟨src, dst, Role.assign.label index⟩ ∧
      (analysis graph).seeds.Solution grammar ⟨dst, src, Role.assignBar.label index⟩ := by
  obtain ⟨⟨symbol, own⟩, there, direct⟩ := straight
  obtain rfl : symbol = assign := (formed.direct symbol).mp direct
  have seeds := solution_seed formed there rfl bar?_symbol.1
  rwa [label_congr rfl own index, label_congr rfl own index] at seeds

private theorem solution_matched {base other : Node} {index : Nat}
    (opens : (analysis graph).seeds.Solution grammar ⟨src, base, Role.derefBar.label index⟩)
    (inner : (analysis graph).seeds.Solution grammar ⟨base, other, Role.mayAlias.label index⟩)
    (closes : (analysis graph).seeds.Solution grammar ⟨other, dst, Role.deref.label index⟩) :
    (analysis graph).seeds.Solution grammar ⟨src, dst, Role.matched.label index⟩ := by
  have half : (analysis graph).seeds.Solution grammar ⟨src, other, Role.dereferenced.label index⟩ :=
    solution_binary (by simp [binary_grammar]) index opens inner (by simp [Role.isVariant]) (.inl rfl)
  exact solution_binary (by simp [binary_grammar]) index half closes (by simp [Role.isVariant]) (.inl rfl)

private theorem solution_accessed {base other : Node} {index : Nat}
    (opens : (analysis graph).seeds.Solution grammar ⟨src, base, Role.fieldBar.label index⟩)
    (inner : (analysis graph).seeds.Solution grammar ⟨base, other, Role.mayAlias.label index⟩)
    (closes : (analysis graph).seeds.Solution grammar ⟨other, dst, Role.field.label index⟩) :
    (analysis graph).seeds.Solution grammar ⟨src, dst, Role.mayAlias.label index⟩ := by
  have half : (analysis graph).seeds.Solution grammar ⟨src, other, Role.accessed.label index⟩ :=
    solution_binary (by simp [binary_grammar]) index opens inner (by simp [Role.isVariant]) (.inl rfl)
  exact solution_binary (by simp [binary_grammar]) index half closes (by simp [Role.isVariant]) (.inl rfl)

/-- An alias moves on along an assignment, and to the memory aliases of where it got. -/
private theorem solution_forth {next : Node} {index : Nat}
    (inside : (analysis graph).seeds.Solution grammar ⟨src, middle, Role.mayAlias.label index⟩)
    (straight : (analysis graph).seeds.Solution grammar ⟨middle, next, Role.assign.label index⟩) :
    (analysis graph).seeds.Solution grammar ⟨src, next, Role.mayAlias.label index⟩ ∧
      ∀ dst, (analysis graph).seeds.Solution grammar ⟨next, dst, Role.matched.label index⟩ →
        (analysis graph).seeds.Solution grammar ⟨src, dst, Role.mayAlias.label index⟩ := by
  have moves : ∀ dst, (analysis graph).seeds.Solution grammar ⟨middle, dst, Role.assigned.label index⟩ →
      (analysis graph).seeds.Solution grammar ⟨src, dst, Role.mayAlias.label index⟩ := fun dst path =>
    solution_binary (by simp [binary_grammar]) index inside path (by simp [Role.isVariant]) (.inl rfl)
  refine ⟨moves next (solution_unary (by simp [unary_grammar]) rfl straight rfl), fun dst memory => ?_⟩
  exact moves dst
    (solution_binary (by simp [binary_grammar]) index straight memory (by simp [Role.isVariant]) (.inl rfl))

/-- And backwards. -/
private theorem solution_back {next : Node} {index : Nat}
    (straight : (analysis graph).seeds.Solution grammar ⟨next, middle, Role.assignBar.label index⟩)
    (inside : (analysis graph).seeds.Solution grammar ⟨middle, dst, Role.mayAlias.label index⟩) :
    (analysis graph).seeds.Solution grammar ⟨next, dst, Role.mayAlias.label index⟩ ∧
      ∀ src, (analysis graph).seeds.Solution grammar ⟨src, next, Role.matched.label index⟩ →
        (analysis graph).seeds.Solution grammar ⟨src, dst, Role.mayAlias.label index⟩ := by
  have moves : ∀ src, (analysis graph).seeds.Solution grammar ⟨src, middle, Role.assignedBar.label index⟩ →
      (analysis graph).seeds.Solution grammar ⟨src, dst, Role.mayAlias.label index⟩ := fun src path =>
    solution_binary (by simp [binary_grammar]) index path inside (by simp [Role.isVariant]) (.inr rfl)
  refine ⟨moves next (solution_unary (by simp [unary_grammar]) rfl straight rfl), fun src memory => ?_⟩
  exact moves src
    (solution_binary (by simp [binary_grammar]) index memory straight (by simp [Role.isVariant]) (.inl rfl))

private theorem solution_memory (formed : WellFormed graph) {base other : Node} {index : Nat}
    (opens : Derefs graph base src) (closes : Derefs graph other dst)
    (inner : (analysis graph).seeds.Solution grammar ⟨base, other, Role.mayAlias.label index⟩) :
    (analysis graph).seeds.Solution grammar ⟨src, dst, Role.matched.label index⟩ :=
  solution_matched (solution_derefs formed opens index).2 inner (solution_derefs formed closes index).1

theorem solution_of_aliases (formed : WellFormed graph) (aliases : Aliases graph src dst) (index : Nat) :
    (analysis graph).seeds.Solution grammar ⟨src, dst, Role.mayAlias.label index⟩ := by
  induction aliases generalizing index with
  | refl live =>
    rw [Role.label_of_not_isVariant rfl]
    refine .inr (.initial ⟨?_, .inr ⟨_, (mem_nodes_seeds formed _).mpr live, mayAlias, ?_, rfl⟩⟩)
    · rw [isFault_iff]
      exact Role.mayAlias.symbol_ne_fault
    · exact (mem_nullable_grammar _).mpr rfl
  | deref opens _ closes inner =>
    exact solution_unary (by simp [unary_grammar]) rfl (solution_memory formed opens closes (inner index)) rfl
  | @field base other src dst own opens _ closes inner =>
    rw [label_congr rfl index own]
    exact solution_accessed (solution_seed formed opens rfl bar?_symbol.2.2).2 (inner own)
      (solution_seed formed closes rfl bar?_symbol.2.2).1
  | forth _ straight inside =>
    exact (solution_forth (inside index) (solution_straight formed straight index).1).1
  | forthDeref _ straight opens _ closes inside inner =>
    exact (solution_forth (inside index) (solution_straight formed straight index).1).2 _
      (solution_memory formed opens closes (inner index))
  | back straight _ inside =>
    exact (solution_back (solution_straight formed straight index).2 (inside index)).1
  | backDeref opens _ closes straight _ inner inside =>
    exact (solution_back (solution_straight formed straight index).2 (inside index)).2 _
      (solution_memory formed opens closes (inner index))

/-- The edges of value aliases in the solution are the aliases. -/
theorem solution_iff_aliases (formed : WellFormed graph) (src dst : Node) :
    (analysis graph).seeds.Solution grammar ⟨src, dst, .plain mayAlias⟩ ↔ Aliases graph src dst := by
  have own : Role.mayAlias.label 0 = .plain mayAlias := Role.label_of_not_isVariant rfl 0
  rw [← own]
  refine ⟨fun inside => ?_, fun aliases => solution_of_aliases formed aliases 0⟩
  exact means_of_derives formed (inside.derives (not_silent rfl _ _ _)) .mayAlias
    (Role.symbol_label .mayAlias 0).symm

/-! ### Memory aliases and assignments -/

/-- The edges of memory aliases in the solution are the memory aliases. -/
theorem solution_iff_memory (formed : WellFormed graph) (src dst : Node) :
    (analysis graph).seeds.Solution grammar ⟨src, dst, .plain matched⟩ ↔ Memory graph src dst := by
  have own : Role.matched.label 0 = .plain matched := Role.label_of_not_isVariant rfl 0
  rw [← own]
  constructor
  · exact fun inside => means_of_solution formed inside .matched (Role.symbol_label .matched 0).symm
  · rintro ⟨base, other, opens, aliases, closes⟩
    exact solution_memory formed opens closes (solution_of_aliases formed aliases 0)

/-- The solution stays within the graph. -/
theorem hasNode_of_solution (formed : WellFormed graph) {edge : Edge}
    (inside : (analysis graph).seeds.Solution grammar edge) :
    graph.hasNode edge.src ∧ graph.hasNode edge.dst := by
  have within : (analysis graph).seeds.Within grammar [] edge := inside.within
  exact ⟨(mem_nodes_seeds formed _).mp (Analysis.mem_nodes_of_mentioned _ within.src),
    (mem_nodes_seeds formed _).mp (Analysis.mem_nodes_of_mentioned _ within.dst)⟩

private theorem solution_reflexive (formed : WellFormed graph) {node : Node} (live : graph.hasNode node)
    {role : Role} (plain : role.isVariant = false)
    (reflexive : .plain role.symbol ∈ (analysis graph).seeds.reflexive) (index : Nat) :
    (analysis graph).seeds.Solution grammar ⟨node, node, role.label index⟩ := by
  have sound : ¬ (Label.plain role.symbol).isFault := by
    rw [isFault_iff]
    exact role.symbol_ne_fault
  rw [Role.label_of_not_isVariant plain]
  by_cases first : (analysis graph).seeds.Initial grammar ⟨node, node, .plain role.symbol⟩
  · exact .inr (.initial first)
  · exact .inl ⟨sound, first, node, (mem_nodes_seeds formed node).mpr live, _, reflexive, rfl⟩

/-- An assignment, and one that a memory alias continues, shows in the solution both ways. -/
private theorem solution_assigns (formed : WellFormed graph) (assigns : Assigns graph src dst)
    (index : Nat) :
    (analysis graph).seeds.Solution grammar ⟨src, dst, Role.assigned.label index⟩ ∧
      (analysis graph).seeds.Solution grammar ⟨dst, src, Role.assignedBar.label index⟩ := by
  obtain straight | ⟨next, straight, memory⟩ := assigns
  · obtain ⟨forth, back⟩ := solution_straight formed straight index
    exact ⟨solution_unary (by simp [unary_grammar]) rfl forth rfl,
      solution_unary (by simp [unary_grammar]) rfl back rfl⟩
  · obtain ⟨forth, back⟩ := solution_straight formed straight index
    have ahead := (solution_iff_memory formed _ _).mpr memory
    have behind := (solution_iff_memory formed _ _).mpr memory.symm
    have own : Role.matched.label index = .plain matched := Role.label_of_not_isVariant rfl index
    rw [← own] at ahead behind
    exact ⟨solution_binary (by simp [binary_grammar]) index forth ahead (by simp [Role.isVariant]) (.inl rfl),
      solution_binary (by simp [binary_grammar]) index behind back (by simp [Role.isVariant]) (.inl rfl)⟩

/-- Value flow through assignments shows in the solution both ways. -/
private theorem solution_path (formed : WellFormed graph) (live : graph.hasNode src)
    (path : ReflTransGen (Assigns graph) src dst) (index : Nat) :
    (analysis graph).seeds.Solution grammar ⟨src, dst, Role.assigned.label index⟩ ∧
      (analysis graph).seeds.Solution grammar ⟨dst, src, Role.assignedBar.label index⟩ := by
  induction path with
  | refl =>
    have reflexive := reflexive_seeds graph
    exact ⟨solution_reflexive formed live rfl (reflexive ▸ List.mem_cons_self) index,
      solution_reflexive formed live rfl (reflexive ▸ by simp [Role.symbol]) index⟩
  | @tail between dst _ step ih =>
    by_cases same : between = dst
    · exact same ▸ ih
    · -- Only loops are silent, and this step is none.
      obtain ⟨forth, back⟩ := solution_assigns formed step index
      have apart : ∀ {label : Label} {one two : Node}, one ≠ two →
          ¬ (analysis graph).seeds.Silent grammar ⟨one, two, label⟩ := by
        rintro label one two apart ⟨-, -, node, -, other, -, equal⟩
        obtain ⟨rfl, rfl, -⟩ := Edge.mk.inj equal
        exact apart rfl
      exact ⟨solution_join (by simp [binary_grammar]) index ih.1 forth (by simp [Role.isVariant])
          (.inr (apart same)),
        solution_join (by simp [binary_grammar]) index back ih.2 (by simp [Role.isVariant])
          (.inl (apart (Ne.symm same)))⟩

/-- The edges of value flow in the solution lead from live nodes along assignments. -/
theorem solution_iff_assigned (formed : WellFormed graph) (src dst : Node) :
    (analysis graph).seeds.Solution grammar ⟨src, dst, .plain assigned⟩ ↔
      graph.hasNode src ∧ ReflTransGen (Assigns graph) src dst := by
  have own : Role.assigned.label 0 = .plain assigned := Role.label_of_not_isVariant rfl 0
  rw [← own]
  refine ⟨fun inside => ⟨(hasNode_of_solution formed inside).1, ?_⟩,
    fun ⟨live, path⟩ => (solution_path formed live path 0).1⟩
  exact means_of_solution formed inside .assigned (Role.symbol_label .assigned 0).symm

theorem solution_iff_assignedBar (formed : WellFormed graph) (src dst : Node) :
    (analysis graph).seeds.Solution grammar ⟨dst, src, .plain assignedBar⟩ ↔
      graph.hasNode src ∧ ReflTransGen (Assigns graph) src dst := by
  have own : Role.assignedBar.label 0 = .plain assignedBar := Role.label_of_not_isVariant rfl 0
  rw [← own]
  refine ⟨fun inside => ⟨(hasNode_of_solution formed inside).2, ?_⟩,
    fun ⟨live, path⟩ => (solution_path formed live path 0).2⟩
  exact means_of_solution formed inside .assignedBar (Role.symbol_label .assignedBar 0).symm

/-! ### Solving -/

/-- The shortcuts over dereferences and over fields derive nothing new. -/
theorem implied_solver (formed : WellFormed graph) {config : Config} {solver : Solver}
    (made : (analysis graph).solver config = .ok solver) :
    solver.Implied (analysis graph).seeds grammar := by
  obtain ⟨prepared, brackets⟩ := Analysis.prepared_of_solver made
  intro rule listed opening inner parent src dst child opens holds one two three
  -- Whatever the indices of the three are, only those of field accesses count.
  have own : ∀ {role : Role} {label : Label} {src dst : Node}, label.symbol = role.symbol →
      (analysis graph).seeds.Solution grammar ⟨src, dst, label⟩ →
      role.label label.index = label := by
    intro role label src dst same inside
    by_cases varies : role.isVariant
    · rw [Role.label_of_isVariant varies, ← same]
    · rw [Bool.not_eq_true] at varies
      rw [Role.label_of_not_isVariant varies, ← same]
      exact (inside.plain (indexedBy_seeds formed) (by rw [same, Role.isVariant_symbol, varies])).symm
  have opened : ∀ role : Role, opening.symbol = role.symbol →
      (analysis graph).seeds.Solution grammar ⟨parent, src, role.label opening.index⟩ :=
    fun role same => by rwa [own same one]
  have inside : inner.symbol = Role.mayAlias.symbol → ∀ index,
      (analysis graph).seeds.Solution grammar ⟨src, dst, Role.mayAlias.label index⟩ :=
    fun same index => by rwa [label_congr rfl index inner.index, own same two]
  have closing : ∀ symbol index, solver.grammar.label symbol index = grammar.label symbol index := by
    intro symbol index
    rw [Grammar.label, Grammar.label, prepared.isVariant]
    rfl
  rw [closing] at three
  rw [brackets] at listed
  obtain rfl | rfl := List.mem_pair.mp listed
  · have whole := solution_matched (opened .derefBar opens) (inside holds opening.index) three
    rwa [Role.label_of_not_isVariant rfl] at whole
  · have whole := solution_accessed (opened .fieldBar opens) (inside holds opening.index) three
    rwa [Role.label_of_not_isVariant rfl] at whole

/-- Whatever the strategy, solving finds the aliases. -/
theorem solve_aliases (formed : WellFormed graph) {config : Config} {solver : Solver}
    (made : (analysis graph).solver config = .ok solver) (order : LabelOrder) {deadline : Deadline}
    (unexpired : ∀ tick, deadline.expired tick = false) :
    ∃ result, solver.solveInOrder order (analysis graph).seeds deadline = .ok result ∧
      ∀ src dst, result.data.contains ⟨src, dst, .plain mayAlias⟩ ↔ Aliases graph src dst := by
  obtain ⟨prepared, -⟩ := Analysis.prepared_of_solver made
  obtain ⟨result, solved, found⟩ := prepared.solve_exact built_grammar.selfRuled
    (indexedBy_seeds formed) (implied_solver formed made) order unexpired
  exact ⟨result, solved, fun src dst => (found _).trans (solution_iff_aliases formed src dst)⟩

end GrammarReach.Alias
