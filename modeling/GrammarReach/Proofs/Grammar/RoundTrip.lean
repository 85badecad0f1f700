import Mathlib.Data.List.Nodup
import GrammarReach.Proofs.Grammar.Printable

/-!
Writing a grammar and reading it back.

The text of a grammar lists its productions, each of at most two symbols on the right, by name. Reading it
declares the names in another order, so symbols get other numbers, but no production is split any more and
nothing is generated: the grammar that comes back has the same productions by name. Everything else about
it follows from them: its names are those in productions, since every symbol is in one, the variant symbols
are told by their names, and the transitive ones by their productions.
-/

namespace GrammarReach.Grammar

variable {grammar other before after : Grammar} {production : Production} {productions : List Production}

/-- Whether a production is in the tables, by the names of its symbols. -/
def Lists (grammar : Grammar) (production : Production) : Prop :=
  ∃ rule, grammar.Has rule ∧ rule.symbols.map grammar.name? = production.names.map some

theorem Has.length_le {rule : Rule} (has : grammar.Has rule) : rule.rhs.length ≤ 2 := by
  obtain ⟨lhs, _ | ⟨left, _ | ⟨right, _ | ⟨third, rest⟩⟩⟩⟩ := rule
  · simp
  · simp
  · simp
  · exact absurd has id

theorem Lists.length_le (lists : grammar.Lists production) : production.rhs.length ≤ 2 := by
  obtain ⟨rule, has, same⟩ := lists
  have lengths : rule.rhs.length = production.rhs.length := by
    simpa [Rule.symbols, Production.names] using congrArg List.length same
  exact lengths ▸ has.length_le

/-- A production by the names of its symbols. -/
def spell (grammar : Grammar) (rule : Rule) : Production :=
  ⟨grammar.nameOrFault rule.lhs, rule.rhs.map grammar.nameOrFault⟩

theorem map_name?_spell {rule : Rule} (known : ∀ symbol ∈ rule.symbols, grammar.Declared symbol) :
    rule.symbols.map grammar.name? = (grammar.spell rule).names.map some := by
  have names : (grammar.spell rule).names = rule.symbols.map grammar.nameOrFault := rfl
  rw [names, List.map_map]
  refine List.map_congr_left fun symbol inside => ?_
  obtain ⟨name, named⟩ := declared_iff.mp (known symbol inside)
  simp [nameOrFault, named]

/-- In a well-formed grammar, the productions in the tables are those that they spell. -/
theorem WellFormed.lists_iff (formed : grammar.WellFormed) :
    grammar.Lists production ↔ ∃ rule, grammar.Has rule ∧ grammar.spell rule = production := by
  refine exists_congr fun rule => and_congr_right fun has => ?_
  rw [map_name?_spell (formed.known rule has)]
  refine ⟨fun same => ?_, fun same => same ▸ rfl⟩
  exact Production.names_injective ((Option.some_injective _).list_map same)

/-- A short production is added as it was written. -/
theorem Adds.lists_of_short {fresh lhs : Symbol} {rhs : List Symbol}
    (adds : Adds before after production fresh lhs rhs) (short : production.rhs.length ≤ 2)
    (formed : before.WellFormed) (named : Production) :
    after.Lists named ↔ before.Lists named ∨ named = production := by
  have own : ∀ rule, after.Has rule ↔ before.Has rule ∨ rule = ⟨lhs, rhs⟩ := by
    intro rule
    rw [adds.has, parts_of_short (adds.length_rhs.trans_le short), List.mem_singleton]
  constructor
  · rintro ⟨rule, has, same⟩
    rcases (own rule).mp has with old | rfl
    · refine .inl ⟨rule, old, same ▸ List.map_congr_left fun symbol inside => ?_⟩
      exact (name?_eq_of_grown adds.names (formed.known rule old symbol inside)).symm
    · have names := (Option.some_injective _).list_map (same.symm.trans adds.symbols_named)
      exact .inr (Production.names_injective names)
  · rintro (⟨rule, has, same⟩ | rfl)
    · exact ⟨rule, (own rule).mpr (.inl has), map_name?_of_grown adds.names same⟩
    · exact ⟨⟨lhs, rhs⟩, (own _).mpr (.inr rfl), adds.symbols_named⟩

/-- Short productions are in the tables as they were written. -/
theorem lists_ofProductions (short : ∀ production ∈ productions, production.rhs.length ≤ 2)
    (named : Production) : (ofProductions productions).Lists named ↔ named ∈ productions := by
  revert short
  refine ofProductions_induction (motive := fun productions grammar =>
    (∀ production ∈ productions, production.rhs.length ≤ 2) → (grammar.Lists named ↔ named ∈ productions))
    ?_ ?_ productions
  · exact fun _ => iff_of_false (fun ⟨rule, has, _⟩ => not_has_empty rule has) List.not_mem_nil
  · intro earlier before after production fresh lhs rhs formed adds ih short
    rw [adds.lists_of_short (short production (by simp)) formed,
      ih fun other listed => short other (List.mem_append_left _ listed), List.mem_append,
      List.mem_singleton]

def Used (grammar : Grammar) : Prop :=
  ∀ symbol, grammar.Declared symbol → ∃ rule, grammar.Has rule ∧ symbol ∈ rule.symbols

theorem Adds.used {fresh lhs : Symbol} {rhs : List Symbol}
    (adds : Adds before after production fresh lhs rhs) (used : before.Used) : after.Used := by
  intro symbol declared
  have part : ∀ rule ∈ parts lhs fresh rhs, after.Has rule := fun rule part => (adds.has rule).mpr (.inr part)
  rcases Nat.lt_or_ge symbol fresh with below | above
  · obtain ⟨name, named⟩ := declared_iff.mp declared
    rcases adds.spelled symbol below name named with old | written
    · obtain ⟨earlier, known⟩ := declares_iff_exists.mp (declares_iff.mpr old)
      obtain rfl := symbol_unique adds.distinct named (name?_of_grown adds.names known)
      obtain ⟨rule, has, inside⟩ := used symbol (.of_name known)
      exact ⟨rule, (adds.has rule).mpr (.inl has), inside⟩
    · obtain ⟨own, inside, known⟩ := (mem_iff_of_map_name? adds.symbols_named).mp written
      obtain rfl := symbol_unique adds.distinct named known
      obtain ⟨rule, listed, mentions⟩ := exists_part inside fresh
      exact ⟨rule, part rule listed, mentions⟩
  · obtain ⟨position, rfl⟩ := Nat.exists_eq_add_of_le above
    have inside : position + 2 < rhs.length := by
      have size := adds.size
      have known := declared.2
      grind
    exact ⟨_, part _ ((mem_parts_iff (by omega) _ _ _).mpr ⟨position, Nat.lt_of_succ_lt inside, rfl⟩),
      List.mem_cons.mpr (.inl (lhs_link (Nat.ne_of_lt inside)).symm)⟩

theorem used_ofProductions (productions : List Production) : (ofProductions productions).Used :=
  ofProductions_induction (motive := fun _ grammar => grammar.Used)
    (fun _ declared => absurd declared.2 (Nat.not_le_of_lt declared.1))
    (fun _ adds used => adds.used used) productions

/-- The names of a grammar are those in its productions. -/
theorem mem_names_iff_lists (formed : grammar.WellFormed) (used : grammar.Used) (name : String) :
    name ∈ grammar.names ↔ ∃ production, grammar.Lists production ∧ name ∈ production.names := by
  constructor
  · intro inside
    obtain ⟨symbol, named⟩ := declares_iff_exists.mp (declares_iff.mpr inside)
    obtain ⟨rule, has, listed⟩ := used symbol (.of_name named)
    have same := map_name?_spell (formed.known rule has)
    exact ⟨_, ⟨rule, has, same⟩, (mem_iff_of_map_name? same).mpr ⟨symbol, listed, named⟩⟩
  · rintro ⟨production, ⟨rule, has, same⟩, inside⟩
    obtain ⟨symbol, -, named⟩ := (mem_iff_of_map_name? same).mp inside
    exact mem_names_of_name? named

/-- The symbols of the productions with a number of symbols on the right, two at most. -/
def row (grammar : Grammar) : Nat → List (List Symbol)
  | 0 => grammar.nullable.toList.map ([·])
  | 1 => grammar.unary.map fun rule => [rule.lhs, rule.rhs]
  | _ => grammar.binary.map fun rule => [rule.lhs, rule.left, rule.right]

/-- The order of the written productions. -/
def namesLe (a b : List String) : Bool := @decide _ (List.decidableLE a b)

def sortNames (rules : List (List String)) : List (List String) := rules.mergeSort namesLe

theorem namedRules_eq (grammar : Grammar) : grammar.namedRules =
    [0, 1, 2].flatMap fun length =>
      sortNames ((grammar.row length).map (·.map grammar.nameOrFault)) := by
  simp only [namedRules, List.flatMap_cons, List.flatMap_nil, List.append_nil, ← List.append_assoc]
  rfl

theorem mem_row {length : Nat} (short : length ≤ 2) (symbols : List Symbol) :
    symbols ∈ grammar.row length ↔
      ∃ rule, grammar.Has rule ∧ rule.rhs.length = length ∧ rule.symbols = symbols := by
  match length, short with
  | 0, _ =>
    rw [row, List.mem_map]
    constructor
    · rintro ⟨lhs, listed, rfl⟩
      exact ⟨⟨lhs, []⟩, Std.TreeSet.mem_toList.mp listed, rfl, rfl⟩
    · rintro ⟨⟨lhs, rhs⟩, has, none, rfl⟩
      obtain rfl := List.length_eq_zero_iff.mp none
      exact ⟨lhs, Std.TreeSet.mem_toList.mpr has, rfl⟩
  | 1, _ =>
    rw [row, List.mem_map]
    constructor
    · rintro ⟨rule, listed, rfl⟩
      exact ⟨⟨rule.lhs, [rule.rhs]⟩, listed, rfl, rfl⟩
    · rintro ⟨⟨lhs, rhs⟩, has, one, rfl⟩
      obtain ⟨single, rfl⟩ := List.length_eq_one_iff.mp one
      exact ⟨_, has, rfl⟩
  | 2, _ =>
    have same : grammar.row 2 = grammar.binary.map fun rule => [rule.lhs, rule.left, rule.right] := rfl
    rw [same, List.mem_map]
    constructor
    · rintro ⟨rule, listed, rfl⟩
      exact ⟨⟨rule.lhs, [rule.left, rule.right]⟩, listed, rfl, rfl⟩
    · rintro ⟨⟨lhs, rhs⟩, has, two, rfl⟩
      obtain ⟨left, right, rfl⟩ := List.length_eq_two.mp two
      exact ⟨_, has, rfl⟩

theorem nodup_row (tidy : grammar.Tidy) (length : Nat) : (grammar.row length).Nodup := by
  unfold row
  split
  · have distinct : grammar.nullable.toList.Nodup := Std.TreeSet.distinct_toList.imp fun apart same =>
      apart (Std.LawfulEqCmp.compare_eq_iff_eq.mpr same)
    exact distinct.map fun _ _ => List.singleton_inj.mp
  · exact tidy.unary.map fun ⟨_, _⟩ ⟨_, _⟩ same => by simpa using same
  · exact tidy.binary.map fun ⟨_, _, _⟩ ⟨_, _, _⟩ same => by simpa using same

/-- Different symbols have different names in a well-formed grammar, and so have different productions. -/
theorem WellFormed.spell_injective (formed : grammar.WellFormed) {rule rule' : Rule} (has : grammar.Has rule)
    (has' : grammar.Has rule') (same : grammar.spell rule = grammar.spell rule') : rule = rule' := by
  have one := map_name?_spell (formed.known rule has)
  have two := map_name?_spell (formed.known rule' has')
  rw [← same] at two
  obtain ⟨lhs, rhs⟩ := rule
  obtain ⟨lhs', rhs'⟩ := rule'
  obtain ⟨rfl, rfl⟩ := List.cons.inj (symbols_unique formed.distinct one two)
  rfl

/-- The productions with a number of symbols on the right, by name. -/
theorem mem_map_row (formed : grammar.WellFormed) {length : Nat} (short : length ≤ 2) (names : List String) :
    names ∈ (grammar.row length).map (·.map grammar.nameOrFault) ↔
      ∃ production, grammar.Lists production ∧ production.rhs.length = length ∧ production.names = names := by
  simp only [List.mem_map, mem_row short, formed.lists_iff]
  constructor
  · rintro ⟨symbols, ⟨rule, has, same, rfl⟩, rfl⟩
    exact ⟨grammar.spell rule, ⟨rule, has, rfl⟩, by simpa [spell] using same, rfl⟩
  · rintro ⟨production, ⟨rule, has, rfl⟩, same, rfl⟩
    exact ⟨rule.symbols, ⟨rule, has, by simpa [spell] using same, rfl⟩, rfl⟩

theorem nodup_map_row (formed : grammar.WellFormed) (tidy : grammar.Tidy) {length : Nat} (short : length ≤ 2) :
    ((grammar.row length).map (·.map grammar.nameOrFault)).Nodup := by
  refine (nodup_row tidy length).map_on fun symbols listed symbols' listed' same => ?_
  obtain ⟨rule, has, -, rfl⟩ := (mem_row short _).mp listed
  obtain ⟨rule', has', -, rfl⟩ := (mem_row short _).mp listed'
  exact congrArg Rule.symbols (formed.spell_injective has has' (Production.names_injective same))

theorem perm_map_row (formed : grammar.WellFormed) (formed' : other.WellFormed) (tidy : grammar.Tidy)
    (tidy' : other.Tidy) (same : ∀ production, grammar.Lists production ↔ other.Lists production)
    {length : Nat} (short : length ≤ 2) :
    ((grammar.row length).map (·.map grammar.nameOrFault)).Perm
      ((other.row length).map (·.map other.nameOrFault)) := by
  refine (List.perm_ext_iff_of_nodup (nodup_map_row formed tidy short) (nodup_map_row formed' tidy' short)).mpr
    fun names => ?_
  simp only [mem_map_row formed short, mem_map_row formed' short, same]

theorem sortNames_eq_of_perm {rules rules' : List (List String)} (same : rules.Perm rules') :
    sortNames rules = sortNames rules' := by
  have le_iff : ∀ a b, namesLe a b ↔ @LE.le _ List.instLE a b := fun a b => decide_eq_true_iff
  have sorted : ∀ rules, (sortNames rules).Pairwise (namesLe · ·) := by
    refine List.pairwise_mergeSort ?_ ?_
    · simp only [le_iff]
      exact fun _ _ _ => List.le_trans
    · simp only [Bool.or_eq_true, le_iff]
      exact List.le_total
  have perm := ((List.mergeSort_perm rules namesLe).trans same).trans (List.mergeSort_perm rules' namesLe).symm
  refine List.Perm.eq_of_pairwise ?_ (sorted rules) (sorted rules') perm
  simp only [le_iff]
  exact fun _ _ _ _ => List.le_antisymm

private theorem le_two_of_mem : ∀ {length : Nat}, length ∈ [0, 1, 2] → length ≤ 2 := by
  decide

/-- The text of a grammar depends on its productions by name only. -/
theorem namedRules_eq_of_lists (formed : grammar.WellFormed) (formed' : other.WellFormed) (tidy : grammar.Tidy)
    (tidy' : other.Tidy) (same : ∀ production, grammar.Lists production ↔ other.Lists production) :
    grammar.namedRules = other.namedRules := by
  rw [namedRules_eq, namedRules_eq]
  exact List.flatMap_congr fun length listed =>
    sortNames_eq_of_perm (perm_map_row formed formed' tidy tidy' same (le_two_of_mem listed))

theorem mem_namedRules (formed : grammar.WellFormed) (names : List String) :
    names ∈ grammar.namedRules ↔ ∃ production, grammar.Lists production ∧ production.names = names := by
  rw [namedRules_eq, List.mem_flatMap]
  constructor
  · rintro ⟨length, listed, inside⟩
    have short : length ≤ 2 := le_two_of_mem listed
    obtain ⟨production, lists, -, same⟩ := (mem_map_row formed short names).mp (List.mem_mergeSort.mp inside)
    exact ⟨production, lists, same⟩
  · rintro ⟨production, lists, same⟩
    have short := lists.length_le
    refine ⟨production.rhs.length, ?_, List.mem_mergeSort.mpr ((mem_map_row formed short names).mpr
      ⟨production, lists, rfl, same⟩)⟩
    rw [List.mem_cons, List.mem_cons, List.mem_singleton]
    omega

/-- What a grammar lists by name makes a line. -/
theorem Lists.isLine (lists : grammar.Lists production) (printable : grammar.Printable) :
    Text.IsLine production.names := by
  obtain ⟨rule, has, same⟩ := lists
  refine ⟨List.cons_ne_nil _ _, fun name inside => ?_, ?_⟩
  · obtain ⟨symbol, -, named⟩ := (mem_iff_of_map_name? same).mp inside
    exact printable.field name (mem_names_of_name? named)
  · rintro name ⟨⟩
    exact printable.visible rule has _ (List.cons.inj same).1

/-- Symbols that bear the names of a production make it up. -/
theorem WellFormed.lists_iff_has (formed : grammar.WellFormed) {rule : Rule}
    (named : rule.symbols.map grammar.name? = production.names.map some) :
    grammar.Lists production ↔ grammar.Has rule := by
  refine ⟨?_, fun has => ⟨rule, has, named⟩⟩
  rintro ⟨⟨lhs, rhs⟩, has, same⟩
  obtain ⟨rfl, rfl⟩ := List.cons.inj (symbols_unique formed.distinct same named)
  exact has

/-- A symbol is transitive where it is listed as a production from two of itself. -/
theorem isTransitive_iff_lists (formed : grammar.WellFormed) (tidy : grammar.Tidy) {symbol : Symbol}
    {name : String} (named : grammar.name? symbol = some name) :
    grammar.isTransitive symbol ↔ grammar.Lists ⟨name, [name, name]⟩ := by
  have symbols : (⟨symbol, [symbol, symbol]⟩ : Rule).symbols.map grammar.name? =
      (⟨name, [name, name]⟩ : Production).names.map some := by
    simp [Rule.symbols, Production.names, named]
  exact (tidy.transitive symbol).trans (formed.lists_iff_has symbols).symm

private theorem exists_map_names {rows : List (List String)} (filled : ∀ names ∈ rows, names ≠ []) :
    ∃ productions : List Production, rows = productions.map (·.names) := by
  induction rows with
  | nil => exact ⟨[], rfl⟩
  | cons names rows ih =>
    obtain ⟨first, rest⟩ := List.forall_mem_cons.mp filled
    obtain ⟨lhs, rhs, rfl⟩ := List.exists_cons_of_ne_nil first
    obtain ⟨productions, rfl⟩ := ih rest
    exact ⟨⟨lhs, rhs⟩ :: productions, rfl⟩

/-- The written productions of a grammar, read again. -/
theorem parse_toText_eq (formed : grammar.WellFormed) (printable : grammar.Printable) :
    ∃ productions : List Production, parse grammar.toText = .ok (ofProductions productions) ∧
      ∀ production, production ∈ productions ↔ grammar.Lists production := by
  have lines : ∀ names ∈ grammar.namedRules, Text.IsLine names := by
    intro names inside
    obtain ⟨production, lists, rfl⟩ := (mem_namedRules formed names).mp inside
    exact lists.isLine printable
  obtain ⟨productions, spelled⟩ := exists_map_names fun names inside => (lines names inside).ne_nil
  have listed : ∀ production, production ∈ productions ↔ grammar.Lists production := by
    intro production
    rw [← List.mem_map_of_injective Production.names_injective, ← spelled, mem_namedRules formed]
    exact ⟨fun ⟨_, lists, same⟩ => Production.names_injective same ▸ lists, fun lists => ⟨_, lists, rfl⟩⟩
  refine ⟨productions, parse_eq_ok_iff.mpr ⟨productions, ?_, fun production inside => ?_, rfl⟩, listed⟩
  · exact (Text.map_fields_records_join fun names inside => (lines names inside).isRow).trans spelled
  · have line := ((listed production).mp inside).isLine printable
    exact fun empty => (line.field "" empty).1 rfl

/-- The text of a grammar that was read is read back. The grammar that comes back has the same symbols, the
same variant and transitive ones among them, and the same productions of each kind, all by name, and its
text is the same. -/
theorem parse_toText {text : String} (read : parse text = .ok grammar) :
    ∃ again, parse grammar.toText = .ok again ∧ again.names.Perm grammar.names ∧
      (∀ (one two : Symbol) (name : String), grammar.name? one = some name → again.name? two = some name →
        (again.isVariant two ↔ grammar.isVariant one) ∧
          (again.isTransitive two ↔ grammar.isTransitive one)) ∧
      (∀ production, again.Lists production ↔ grammar.Lists production) ∧
      again.toText = grammar.toText := by
  obtain ⟨written, spelled, filled, rfl⟩ := parse_eq_ok_iff.mp read
  have formed := wellFormed_ofProductions written
  have tidy := (built_ofProductions written).tidy
  have printable := printable_ofProductions written fun production inside => by
    have listed : production.names ∈ (Text.records text).map (·.fields) :=
      spelled ▸ List.mem_map_of_mem inside
    obtain ⟨record, listed, same⟩ := List.mem_map.mp listed
    exact same ▸ Text.isLine_of_mem_records listed (same ▸ filled production inside)
  obtain ⟨productions, readAgain, listed⟩ := parse_toText_eq formed printable
  have short : ∀ production ∈ productions, production.rhs.length ≤ 2 := fun production inside =>
    ((listed production).mp inside).length_le
  have formedAgain := wellFormed_ofProductions productions
  have tidyAgain := (built_ofProductions productions).tidy
  have lists : ∀ production, (ofProductions productions).Lists production ↔
      (ofProductions written).Lists production := fun production =>
    (lists_ofProductions short production).trans (listed production)
  refine ⟨_, readAgain, ?_, fun one two name first second => ⟨?_, ?_⟩, lists, ?_⟩
  · refine (List.perm_ext_iff_of_nodup formedAgain.distinct formed.distinct).mpr fun name => ?_
    rw [mem_names_iff_lists formedAgain (used_ofProductions _), mem_names_iff_lists formed (used_ofProductions _)]
    simp only [lists]
  · rw [isVariant, isVariant, first, second]
  · rw [isTransitive_iff_lists formedAgain tidyAgain second, isTransitive_iff_lists formed tidy first, lists]
  · rw [toText, toText, namedRules_eq_of_lists formedAgain formed tidyAgain tidy lists]

/-- A text with a comment, a production that is split, one that makes its symbol transitive, and an empty
one. -/
def mixedText : String := "# flows\nS\tcall_i\t S \tret_i\n\nA\tA\tA\nS\n"

theorem parse_toText_mixed : ∃ grammar again, parse mixedText = .ok grammar ∧
    parse grammar.toText = .ok again ∧ again.Lists ⟨"S.1_i", ["call_i", "S"]⟩ ∧
      again.toText = grammar.toText := by
  let written : List Production := [⟨"S", ["call_i", "S", "ret_i"]⟩, ⟨"A", ["A", "A"]⟩, ⟨"S", []⟩]
  have read : parse mixedText = .ok (ofProductions written) :=
    parse_eq_ok_iff.mpr ⟨written, by decide +kernel, by decide, rfl⟩
  obtain ⟨again, readAgain, -, -, lists, same⟩ := parse_toText read
  have split : (ofProductions written).Lists ⟨"S.1_i", ["call_i", "S"]⟩ := by
    have has : (⟨4, 2, 1⟩ : BinaryRule) ∈ (ofProductions written).binary := by decide +kernel
    exact ⟨⟨4, [2, 1]⟩, has, by decide +kernel⟩
  exact ⟨_, again, read, readAgain, (lists _).mpr split, same⟩

end GrammarReach.Grammar
