import Mathlib.Data.List.Nodup
import Mathlib.Data.Option.Basic
import GrammarReach.Grammar.Basic

namespace GrammarReach.Grammar

variable {grammar before after : Grammar} {name : String} {symbol : Symbol}

def Declared (grammar : Grammar) (symbol : Symbol) : Prop := 0 < symbol ∧ symbol ≤ grammar.size

theorem name?_eq_some_iff : grammar.name? symbol = some name ↔
    ∃ position, symbol = position + 1 ∧ grammar.names[position]? = some name := by
  cases symbol with
  | zero => simp [name?]
  | succ position => simp [name?]

theorem declared_iff : grammar.Declared symbol ↔ ∃ name, grammar.name? symbol = some name := by
  cases symbol with
  | zero => simp [Declared, name?]
  | succ position =>
    rw [Declared, and_iff_right (Nat.succ_pos position), Nat.succ_le_iff]
    simp only [name?, size, List.getElem?_eq_some_iff]
    exact ⟨fun inside => ⟨_, inside, rfl⟩, fun ⟨_, inside, _⟩ => inside⟩

theorem Declared.of_name (named : grammar.name? symbol = some name) : grammar.Declared symbol :=
  declared_iff.mpr ⟨name, named⟩

theorem Declared.ne_fault (declared : grammar.Declared symbol) : symbol ≠ Symbol.fault :=
  Nat.pos_iff_ne_zero.mp declared.1

theorem declares_iff : grammar.declares name ↔ name ∈ grammar.names :=
  List.contains_iff_mem

theorem declares_iff_exists : grammar.declares name ↔ ∃ symbol, grammar.name? symbol = some name := by
  rw [declares_iff, List.mem_iff_getElem?]
  constructor
  · rintro ⟨position, found⟩
    exact ⟨position + 1, found⟩
  · rintro ⟨symbol, named⟩
    obtain ⟨position, -, found⟩ := name?_eq_some_iff.mp named
    exact ⟨position, found⟩

theorem mem_names_of_name? (named : grammar.name? symbol = some name) : name ∈ grammar.names :=
  declares_iff.mp (declares_iff_exists.mpr ⟨symbol, named⟩)

/-- Where no name is declared twice, different symbols have different names. -/
theorem symbol_unique (distinct : grammar.names.Nodup) {other : Symbol}
    (one : grammar.name? symbol = some name) (two : grammar.name? other = some name) :
    symbol = other := by
  obtain ⟨position, rfl, found⟩ := name?_eq_some_iff.mp one
  obtain ⟨position', rfl, found'⟩ := name?_eq_some_iff.mp two
  obtain ⟨inside, here⟩ := List.getElem?_eq_some_iff.mp found
  obtain ⟨inside', there⟩ := List.getElem?_eq_some_iff.mp found'
  exact congrArg (· + 1) (distinct.getElem_inj_iff.mp (here.trans there.symm))

theorem symbols_unique (distinct : grammar.names.Nodup) {names : List String} : ∀ {symbols others : List Symbol},
    symbols.map grammar.name? = names.map some → others.map grammar.name? = names.map some →
      symbols = others := by
  induction names with
  | nil =>
    intro symbols others one two
    rw [List.map_eq_nil_iff.mp one, List.map_eq_nil_iff.mp two]
  | cons name names ih =>
    intro symbols others one two
    obtain ⟨symbol, symbols, rfl, first, rest⟩ := List.map_eq_cons_iff.mp one
    obtain ⟨other, others, rfl, first', rest'⟩ := List.map_eq_cons_iff.mp two
    rw [symbol_unique distinct first first', ih rest rest']

/-- The symbol that is found under a name bears it. -/
theorem name?_of_find? (found : grammar.find? name = some symbol) : grammar.name? symbol = some name := by
  obtain ⟨position, at', rfl⟩ := Option.map_eq_some_iff.mp found
  obtain ⟨inside, here, -⟩ := List.idxOf?_eq_some_iff.mp at'
  exact List.getElem?_eq_some_iff.mpr ⟨inside, here⟩

/-- Looking a name up gives the symbol that bears it. -/
theorem find?_eq_some_iff (distinct : grammar.names.Nodup) :
    grammar.find? name = some symbol ↔ grammar.name? symbol = some name := by
  refine ⟨name?_of_find?, fun has => ?_⟩
  cases found : grammar.find? name with
  | none =>
    simp only [find?, Option.map_eq_none_iff, List.idxOf?_eq_none_iff] at found
    exact absurd (mem_names_of_name? has) found
  | some other => exact congrArg some (symbol_unique distinct (name?_of_find? found) has)

/-- Growth keeps the name of a symbol. -/
theorem name?_of_grown (grown : before.names <+: after.names) (named : before.name? symbol = some name) :
    after.name? symbol = some name := by
  obtain ⟨position, rfl, found⟩ := name?_eq_some_iff.mp named
  obtain ⟨inside, here⟩ := List.getElem?_eq_some_iff.mp found
  exact (List.prefix_iff_getElem?.mp grown _ inside).trans (congrArg some here)

theorem Declared.of_grown (grown : before.names <+: after.names) (declared : before.Declared symbol) :
    after.Declared symbol := by
  obtain ⟨name, named⟩ := declared_iff.mp declared
  exact .of_name (name?_of_grown grown named)

/-- A declared symbol had its name before the grammar grew. -/
theorem name?_eq_of_grown (grown : before.names <+: after.names) (declared : before.Declared symbol) :
    after.name? symbol = before.name? symbol := by
  obtain ⟨name, named⟩ := declared_iff.mp declared
  rw [named, name?_of_grown grown named]

theorem isVariant_of_grown (grown : before.names <+: after.names) (declared : before.Declared symbol) :
    after.isVariant symbol = before.isVariant symbol := by
  simp only [isVariant, name?_eq_of_grown grown declared]

theorem any_isVariant_of_grown (grown : before.names <+: after.names) {symbols : List Symbol}
    (known : ∀ symbol ∈ symbols, before.Declared symbol) :
    symbols.any after.isVariant = symbols.any before.isVariant := by
  refine Bool.eq_iff_iff.mpr ?_
  simp only [List.any_eq_true]
  exact exists_congr fun symbol => and_congr_right fun inside => by
    rw [isVariant_of_grown grown (known symbol inside)]

/-- The names that symbols bear. -/
theorem mem_iff_of_map_name? {symbols : List Symbol} {names : List String}
    (named : symbols.map grammar.name? = names.map some) :
    name ∈ names ↔ ∃ symbol ∈ symbols, grammar.name? symbol = some name := by
  rw [← List.mem_map_of_injective (Option.some_injective _), ← named, List.mem_map]

/-- Symbols that bear names are declared. -/
theorem declared_of_map_name? {symbols : List Symbol} {names : List String}
    (named : symbols.map grammar.name? = names.map some) : ∀ symbol ∈ symbols, grammar.Declared symbol := by
  intro symbol inside
  have listed : grammar.name? symbol ∈ names.map some := named ▸ List.mem_map_of_mem inside
  obtain ⟨name, -, same⟩ := List.mem_map.mp listed
  exact .of_name same.symm

theorem map_name?_of_grown (grown : before.names <+: after.names) {symbols : List Symbol}
    {names : List String} (named : symbols.map before.name? = names.map some) :
    symbols.map after.name? = names.map some := by
  rw [← named]
  exact List.map_congr_left fun symbol inside =>
    name?_eq_of_grown grown (declared_of_map_name? named symbol inside)

theorem addSymbol_of_declares (declares : grammar.declares name) :
    (grammar.addSymbol name).1 = grammar := by
  unfold addSymbol
  split
  · rfl
  · next missing =>
    simp only [find?, Option.map_eq_none_iff, List.idxOf?_eq_none_iff] at missing
    exact absurd (declares_iff.mp declares) missing

/-- A name that was not declared is declared last. -/
theorem addSymbol_of_not_declares (new : ¬ grammar.declares name) :
    grammar.addSymbol name = ({ grammar with names := grammar.names ++ [name] }, grammar.size + 1) := by
  have missing : grammar.find? name = none := by
    simpa [find?, List.idxOf?_eq_none_iff] using fun inside => new (declares_iff.mpr inside)
  simp [addSymbol, missing]

/-- What declaring names in order changes: they are declared behind the names before, and the productions
stay as they are. -/
structure Declares (before after : Grammar) (spelled : List String) (symbols : List Symbol) : Prop where
  names : before.names <+: after.names
  distinct : after.names.Nodup
  mem_names : ∀ name, name ∈ after.names ↔ name ∈ before.names ∨ name ∈ spelled
  symbols : symbols.map after.name? = spelled.map some
  drawn : after.drawn = before.drawn
  transitive : after.transitive = before.transitive
  nullable : after.nullable = before.nullable
  unary : after.unary = before.unary
  binary : after.binary = before.binary

theorem addSymbol_declares (distinct : grammar.names.Nodup) (name : String) :
    Declares grammar (grammar.addSymbol name).1 [name] [(grammar.addSymbol name).2] := by
  by_cases known : grammar.declares name
  · have same := addSymbol_of_declares known
    have found : grammar.find? name = some (grammar.addSymbol name).2 := by
      obtain ⟨symbol, named⟩ := declares_iff_exists.mp known
      have found := (find?_eq_some_iff distinct).mpr named
      simp [addSymbol, found]
    have absorbed : ∀ other, other ∈ [name] → other ∈ grammar.names := fun other inside =>
      List.mem_singleton.mp inside ▸ declares_iff.mp known
    rw [same]
    exact
      { names := List.prefix_rfl
        distinct := distinct
        mem_names := fun other => (or_iff_left_of_imp (absorbed other)).symm
        symbols := by simpa using (find?_eq_some_iff distinct).mp found
        drawn := rfl
        transitive := rfl
        nullable := rfl
        unary := rfl
        binary := rfl }
  · rw [addSymbol_of_not_declares known]
    have absent : name ∉ grammar.names := fun inside => known (declares_iff.mpr inside)
    exact
      { names := List.prefix_append _ _
        distinct := by simpa [List.nodup_append] using ⟨distinct, fun other inside =>
          fun same => absent (same ▸ inside)⟩
        mem_names := by simp
        symbols := by simp [name?, size]
        drawn := rfl
        transitive := rfl
        nullable := rfl
        unary := rfl
        binary := rfl }

theorem Declares.trans {middle : Grammar} {spelled later : List String}
    {symbols laterSymbols : List Symbol} (first : Declares before middle spelled symbols)
    (second : Declares middle after later laterSymbols) :
    Declares before after (spelled ++ later) (symbols ++ laterSymbols) where
  names := first.names.trans second.names
  distinct := second.distinct
  mem_names name := by rw [second.mem_names, first.mem_names, List.mem_append, or_assoc]
  symbols := by
    rw [List.map_append, List.map_append, map_name?_of_grown second.names first.symbols, second.symbols]
  drawn := second.drawn.trans first.drawn
  transitive := second.transitive.trans first.transitive
  nullable := second.nullable.trans first.nullable
  unary := second.unary.trans first.unary
  binary := second.binary.trans first.binary

theorem addSymbols_declares (names : List String) : ∀ {grammar : Grammar}, grammar.names.Nodup →
    Declares grammar (grammar.addSymbols names).1 names (grammar.addSymbols names).2 := by
  induction names with
  | nil =>
    intro grammar distinct
    exact ⟨List.prefix_rfl, distinct, by simp [addSymbols], rfl, rfl, rfl, rfl, rfl, rfl⟩
  | cons name names ih =>
    intro grammar distinct
    have first := addSymbol_declares distinct name
    exact first.trans (ih first.distinct)

end GrammarReach.Grammar
