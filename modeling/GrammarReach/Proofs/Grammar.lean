import GrammarReach.Grammar.Text

namespace GrammarReach.Grammar

/-- Grammars that come about by adding symbols and productions. -/
inductive Built : Grammar → Prop
  | empty : Built .empty
  | addSymbol {grammar : Grammar} (name : String) : Built grammar → Built (grammar.addSymbol name).1
  | addRule {grammar : Grammar} (lhs : String) (rhs : List String) : Built grammar →
      Built (grammar.addRule lhs rhs)

variable {grammar : Grammar}

theorem Built.addRules (built : grammar.Built) (rules : List (String × List String)) :
    (rules.foldl (fun grammar (lhs, rhs) => grammar.addRule lhs rhs) grammar).Built :=
  List.foldlRecOn _ _ built fun _ built rule _ => built.addRule rule.1 rule.2

/-- A property that outlasts every step by which a grammar is built. -/
structure Lasting (keeps : Grammar → Prop) : Prop where
  addSymbol : ∀ {grammar : Grammar} (name : String), keeps grammar → keeps (grammar.addSymbol name).1
  draw : ∀ {grammar : Grammar} (number : Nat), keeps grammar → keeps { grammar with drawn := number }
  addEmpty : ∀ {grammar : Grammar} (lhs : Symbol), keeps grammar → keeps (grammar.addEmpty lhs)
  addUnary : ∀ {grammar : Grammar} (lhs rhs : Symbol), keeps grammar → keeps (grammar.addUnary lhs rhs)
  addBinary : ∀ {grammar : Grammar} (lhs left right : Symbol), keeps grammar →
    keeps (grammar.addBinary lhs left right)

section Lasting

variable {keeps : Grammar → Prop} (lasting : Lasting keeps)

include lasting

theorem Lasting.addSymbols (names : List String) :
    ∀ {grammar : Grammar}, keeps grammar → keeps (grammar.addSymbols names).1 := by
  induction names with
  | nil => exact id
  | cons name names ih =>
    intro grammar holds
    exact ih (lasting.addSymbol name holds)

theorem Lasting.intermediate (lhsName : String) (left right : Symbol) (holds : keeps grammar) :
    keeps (grammar.intermediate lhsName left right).1 :=
  lasting.addSymbol _ (lasting.draw _ holds)

theorem Lasting.addRest (lhsName : String) (lhs : Symbol) (rest : List Symbol) :
    ∀ {grammar : Grammar} (left : Symbol), keeps grammar →
      keeps (grammar.addRest lhsName lhs left rest) := by
  induction rest with
  | nil => exact fun _ => id
  | cons next rest ih =>
    intro grammar left holds
    cases rest with
    | nil => exact lasting.addBinary lhs left next holds
    | cons last rest =>
      exact ih _ (lasting.addBinary _ left next (lasting.intermediate lhsName left next holds))

theorem Lasting.addProduction (lhsName : String) (lhs : Symbol) (rhs : List Symbol)
    (holds : keeps grammar) : keeps (grammar.addProduction lhsName lhs rhs) := by
  match rhs with
  | [] => exact lasting.addEmpty lhs holds
  | [single] => exact lasting.addUnary lhs single holds
  | [left, right] => exact lasting.addBinary lhs left right holds
  | left :: right :: next :: rest =>
    exact lasting.addRest lhsName lhs _ _
      (lasting.addBinary _ left right (lasting.intermediate lhsName left right holds))

theorem Lasting.addRule (lhs : String) (rhs : List String) (holds : keeps grammar) :
    keeps (grammar.addRule lhs rhs) :=
  lasting.addProduction lhs _ _ (lasting.addSymbols rhs (lasting.addSymbol lhs holds))

/-- What the empty grammar has and every step keeps, a built grammar has. -/
theorem Lasting.built (empty : keeps .empty) (built : grammar.Built) : keeps grammar := by
  induction built with
  | empty => exact empty
  | addSymbol name _ holds => exact lasting.addSymbol name holds
  | addRule lhs rhs _ holds => exact lasting.addRule lhs rhs holds

end Lasting

theorem mem_addUnary (lhs rhs : Symbol) (rule : UnaryRule) :
    rule ∈ (grammar.addUnary lhs rhs).unary ↔ rule ∈ grammar.unary ∨ rule = ⟨lhs, rhs⟩ := by
  unfold addUnary
  split
  · next known =>
    refine (or_iff_left_of_imp ?_).symm
    rintro rfl
    exact List.contains_iff_mem.mp known
  · simp

theorem addBinary_eq (grammar : Grammar) (lhs left right : Symbol) : ∃ transitive binary,
    grammar.addBinary lhs left right = { grammar with transitive, binary } := by
  unfold addBinary
  dsimp only
  split <;> split <;> exact ⟨_, _, rfl⟩

@[simp] theorem names_addBinary (grammar : Grammar) (lhs left right : Symbol) :
    (grammar.addBinary lhs left right).names = grammar.names := by
  obtain ⟨transitive, binary, same⟩ := grammar.addBinary_eq lhs left right
  rw [same]

@[simp] theorem nullable_addBinary (grammar : Grammar) (lhs left right : Symbol) :
    (grammar.addBinary lhs left right).nullable = grammar.nullable := by
  obtain ⟨transitive, binary, same⟩ := grammar.addBinary_eq lhs left right
  rw [same]

@[simp] theorem unary_addBinary (grammar : Grammar) (lhs left right : Symbol) :
    (grammar.addBinary lhs left right).unary = grammar.unary := by
  obtain ⟨transitive, binary, same⟩ := grammar.addBinary_eq lhs left right
  rw [same]

@[simp] theorem isVariant_addBinary (grammar : Grammar) (lhs left right symbol : Symbol) :
    (grammar.addBinary lhs left right).isVariant symbol = grammar.isVariant symbol := by
  simp only [isVariant, name?, names_addBinary]

theorem binary_addBinary (grammar : Grammar) (lhs left right : Symbol) :
    (grammar.addBinary lhs left right).binary =
      if grammar.binary.contains ⟨lhs, left, right⟩ then grammar.binary
      else grammar.binary ++ [⟨lhs, left, right⟩] := by
  unfold Grammar.addBinary
  dsimp only
  split <;> split <;> rfl

theorem mem_addBinary (lhs left right : Symbol) (rule : BinaryRule) :
    rule ∈ (grammar.addBinary lhs left right).binary ↔
      rule ∈ grammar.binary ∨ rule = ⟨lhs, left, right⟩ := by
  rw [binary_addBinary]
  split
  · next known =>
    refine (or_iff_left_of_imp ?_).symm
    rintro rfl
    exact List.contains_iff_mem.mp known
  · simp

theorem isTransitive_addBinary (lhs left right symbol : Symbol) :
    (grammar.addBinary lhs left right).isTransitive symbol ↔
      grammar.isTransitive symbol ∨ (symbol = lhs ∧ lhs = left ∧ lhs = right) := by
  unfold Grammar.addBinary Grammar.isTransitive
  generalize same : (if grammar.binary.contains ⟨lhs, left, right⟩ then grammar
    else { grammar with binary := grammar.binary ++ [⟨lhs, left, right⟩] }) = grown
  have kept : grown.transitive = grammar.transitive := by
    rw [← same]
    split <;> rfl
  dsimp only
  split
  · next self =>
    obtain ⟨rfl, rfl⟩ := self
    simp only [kept, Std.TreeSet.contains_insert, Bool.or_eq_true, Std.LawfulEqCmp.compare_eq_iff_eq,
      beq_iff_eq, and_true]
    exact or_comm.trans (or_congr_right eq_comm)
  · next other =>
    rw [kept, or_iff_left]
    exact fun self => other self.2

/-- Each production is listed once, and the transitive symbols are those with a production from two of
themselves. -/
structure Tidy (grammar : Grammar) : Prop where
  unary : grammar.unary.Nodup
  binary : grammar.binary.Nodup
  transitive : ∀ symbol, grammar.isTransitive symbol ↔ ⟨symbol, symbol, symbol⟩ ∈ grammar.binary

theorem tidy_empty : empty.Tidy :=
  ⟨List.nodup_nil, List.nodup_nil, by simp [empty, isTransitive]⟩

theorem Tidy.of_same {other : Grammar} (tidy : grammar.Tidy)
    (transitive : other.transitive = grammar.transitive) (unary : other.unary = grammar.unary)
    (binary : other.binary = grammar.binary) : other.Tidy := by
  refine ⟨unary ▸ tidy.unary, binary ▸ tidy.binary, fun symbol => ?_⟩
  rw [isTransitive, transitive, binary]
  exact tidy.transitive symbol

private theorem nodup_concat {α : Type} {items : List α} {item : α} (distinct : items.Nodup)
    (new : item ∉ items) : (items ++ [item]).Nodup := by
  rw [List.nodup_append]
  refine ⟨distinct, by simp, ?_⟩
  rintro known inside other last rfl
  exact new (List.mem_singleton.mp last ▸ inside)

theorem Tidy.addUnary (tidy : grammar.Tidy) (lhs rhs : Symbol) : (grammar.addUnary lhs rhs).Tidy := by
  unfold Grammar.addUnary
  split
  · exact tidy
  · next new =>
    exact ⟨nodup_concat tidy.unary fun known => new (List.contains_iff_mem.mpr known), tidy.binary,
      tidy.transitive⟩

theorem Tidy.addBinary (tidy : grammar.Tidy) (lhs left right : Symbol) :
    (grammar.addBinary lhs left right).Tidy := by
  refine ⟨by simpa using tidy.unary, ?_, fun symbol => ?_⟩
  · rw [binary_addBinary]
    split
    · exact tidy.binary
    · next new => exact nodup_concat tidy.binary fun known => new (List.contains_iff_mem.mpr known)
  · rw [isTransitive_addBinary, mem_addBinary, tidy.transitive]
    simp only [BinaryRule.mk.injEq]
    refine or_congr_right ⟨?_, ?_⟩
    · rintro ⟨rfl, rfl, rfl⟩
      exact ⟨rfl, rfl, rfl⟩
    · rintro ⟨rfl, rfl, rfl⟩
      exact ⟨rfl, rfl, rfl⟩

theorem lasting_tidy : Lasting Tidy where
  addSymbol name tidy := by
    unfold Grammar.addSymbol
    split
    · exact tidy
    · exact tidy.of_same rfl rfl rfl
  draw _ tidy := tidy.of_same rfl rfl rfl
  addEmpty _ tidy := tidy.of_same rfl rfl rfl
  addUnary lhs rhs tidy := tidy.addUnary lhs rhs
  addBinary lhs left right tidy := tidy.addBinary lhs left right

theorem Built.tidy (built : grammar.Built) : grammar.Tidy := lasting_tidy.built tidy_empty built

/-- Every transitive symbol has its production. -/
def SelfRuled (grammar : Grammar) : Prop :=
  ∀ symbol, grammar.isTransitive symbol → ⟨symbol, symbol, symbol⟩ ∈ grammar.binary

theorem Built.selfRuled (built : grammar.Built) : grammar.SelfRuled := fun symbol =>
  (built.tidy.transitive symbol).mp

/-- A nonterminal stands on the left of a production of some kind. -/
theorem mem_nonterminals (grammar : Grammar) (symbol : Symbol) :
    symbol ∈ grammar.nonterminals ↔ symbol ≠ Symbol.fault ∧ (symbol ∈ grammar.nullable ∨
      (∃ rule ∈ grammar.unary, rule.lhs = symbol) ∨ ∃ rule ∈ grammar.binary, rule.lhs = symbol) := by
  simp only [nonterminals, Std.TreeSet.mem_erase, Std.TreeSet.mem_insertMany_list,
    List.contains_iff_mem, List.mem_map, ne_eq, Std.LawfulEqCmp.compare_eq_iff_eq, or_assoc,
    @eq_comm _ Symbol.fault]

/-- A fold that did not fail keeps what each of its steps keeps. -/
theorem foldlM_keeps {α β ε : Type} {keeps : β → Prop} {step : β → α → Except ε β}
    (kept : ∀ state item next, keeps state → step state item = .ok next → keeps next) (items : List α) :
    ∀ start final, keeps start → items.foldlM step start = .ok final → keeps final := by
  induction items with
  | nil =>
    intro start final holds ran
    cases ran
    exact holds
  | cons item items ih =>
    intro start final holds ran
    rw [List.foldlM_cons] at ran
    cases first : step start item with
    | error _ =>
      rw [first] at ran
      cases ran
    | ok next =>
      rw [first] at ran
      exact ih next final (kept start item next holds first) ran

end GrammarReach.Grammar
