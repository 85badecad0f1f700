import GrammarReach.Error
import GrammarReach.Label

/-!
Context-free grammars over edge labels.

A symbol whose name ends in `_i` is a variant symbol: its edges bear an index. Productions have at
most two symbols on the right. A longer one is split from the left, through generated symbols that
stand for its beginnings; a generated symbol is variant when one of its two operands is, so that the
index flows through. A symbol with a production from two of itself is transitive, and stays so when
that production is taken away because a closure structure stands in for it.
-/

namespace GrammarReach

/-- The ending that marks the name of a variant symbol. -/
def variantSuffix : String := "_i"

/-- Whether a name is the name of a variant symbol: something, then the variant ending. -/
def isVariantName (name : String) : Bool :=
  variantSuffix.utf8ByteSize < name.utf8ByteSize && name.endsWith variantSuffix

/-- A name without its variant ending, if it has one. -/
def variantStem (name : String) : String :=
  if name.endsWith variantSuffix then String.ofList (name.toList.dropLast.dropLast) else name

/-- The production `lhs ::= rhs`. -/
structure UnaryRule where
  lhs : Symbol
  rhs : Symbol
deriving DecidableEq

/-- The production `lhs ::= left right`. -/
structure BinaryRule where
  lhs : Symbol
  left : Symbol
  right : Symbol
deriving DecidableEq

/-- A grammar: its symbols and its productions, each kind in the order of declaration. -/
structure Grammar where
  /-- The names of the symbols; symbol one comes first. -/
  names : List String := []
  transitive : Std.TreeSet Symbol := ∅
  /-- The left-hand sides of the empty productions. -/
  nullable : Std.TreeSet Symbol := ∅
  unary : List UnaryRule := []
  binary : List BinaryRule := []
  /-- How many numbers have been drawn for generated names. -/
  drawn : Nat := 0

namespace Grammar

def empty : Grammar := {}

def find? (grammar : Grammar) (name : String) : Option Symbol :=
  (grammar.names.idxOf? name).map (· + 1)

def declares (grammar : Grammar) (name : String) : Bool := grammar.names.contains name

/-- The symbol of a name; a name that was never declared is an error, and is not declared by it. -/
def lookup (grammar : Grammar) (name : String) : Except Error Symbol :=
  match grammar.find? name with
  | some symbol => .ok symbol
  | none => .error (.unknownSymbol name)

def name? (grammar : Grammar) : Symbol → Option String
  | 0 => none
  | position + 1 => grammar.names[position]?

/-- The name of a symbol, or a stand-in for a number that names none. -/
def nameOrFault (grammar : Grammar) (symbol : Symbol) : String :=
  (grammar.name? symbol).getD "<fault>"

def size (grammar : Grammar) : Nat := grammar.names.length

/-- The symbols in order of declaration, with their names. -/
def symbols (grammar : Grammar) : List (Symbol × String) :=
  grammar.names.zipIdx.map fun (name, position) => (position + 1, name)

/-- The symbol declared first. -/
def start? (grammar : Grammar) : Option Symbol := if grammar.names.isEmpty then none else some 1

/-- Whether the edges of a symbol bear an index. -/
def isVariant (grammar : Grammar) (symbol : Symbol) : Bool :=
  (grammar.name? symbol).any isVariantName

/-- Whether a production from two of the symbol itself was declared. -/
def isTransitive (grammar : Grammar) (symbol : Symbol) : Bool := grammar.transitive.contains symbol

/-- The label of a symbol; the index is kept for a variant symbol only. -/
def label (grammar : Grammar) (symbol : Symbol) (index : Nat) : Label :=
  if grammar.isVariant symbol then ⟨symbol, index⟩ else .plain symbol

/-- Declares a name, once. -/
def addSymbol (grammar : Grammar) (name : String) : Grammar × Symbol :=
  match grammar.find? name with
  | some symbol => (grammar, symbol)
  | none => ({ grammar with names := grammar.names ++ [name] }, grammar.size + 1)

/-- Declares names in order. -/
def addSymbols (grammar : Grammar) : List String → Grammar × List Symbol
  | [] => (grammar, [])
  | name :: names =>
    let (grammar, symbol) := grammar.addSymbol name
    let (grammar, symbols) := grammar.addSymbols names
    (grammar, symbol :: symbols)

def addEmpty (grammar : Grammar) (lhs : Symbol) : Grammar :=
  { grammar with nullable := grammar.nullable.insert lhs }

/-- Adds a unary production, once. -/
def addUnary (grammar : Grammar) (lhs rhs : Symbol) : Grammar :=
  if grammar.unary.contains ⟨lhs, rhs⟩ then grammar
  else { grammar with unary := grammar.unary ++ [⟨lhs, rhs⟩] }

/-- Adds a binary production, once; three times the same symbol makes it transitive. -/
def addBinary (grammar : Grammar) (lhs left right : Symbol) : Grammar :=
  let grammar :=
    if grammar.binary.contains ⟨lhs, left, right⟩ then grammar
    else { grammar with binary := grammar.binary ++ [⟨lhs, left, right⟩] }
  if lhs = left ∧ lhs = right then { grammar with transitive := grammar.transitive.insert lhs }
  else grammar

/-- The generated name that a drawn number gives. -/
def generatedName (stem ending : String) (number : Nat) : String :=
  stem ++ "." ++ toString number ++ ending

/-- The next number whose generated name is not taken. One of the first `size + 1` is free. -/
def drawNumber (grammar : Grammar) (stem ending : String) : Nat :=
  let candidates := (List.range (grammar.size + 1)).map (grammar.drawn + 1 + ·)
  (candidates.find? fun number => !grammar.declares (generatedName stem ending number)).getD
    (grammar.drawn + 1)

/-- Declares a symbol that stands for two operands within a production of the given name. -/
def intermediate (grammar : Grammar) (lhsName : String) (left right : Symbol) : Grammar × Symbol :=
  let stem := variantStem lhsName
  let ending := if grammar.isVariant left || grammar.isVariant right then variantSuffix else ""
  let number := grammar.drawNumber stem ending
  { grammar with drawn := number }.addSymbol (generatedName stem ending number)

/-- Adds the rest of a long production, of which `left` stands for the beginning. -/
def addRest (grammar : Grammar) (lhsName : String) (lhs left : Symbol) : List Symbol → Grammar
  | [] => grammar
  | [last] => grammar.addBinary lhs left last
  | next :: rest =>
    let (grammar, joined) := grammar.intermediate lhsName left next
    (grammar.addBinary joined left next).addRest lhsName lhs joined rest

/-- Adds a production with any number of symbols on the right. -/
def addProduction (grammar : Grammar) (lhsName : String) (lhs : Symbol) : List Symbol → Grammar
  | [] => grammar.addEmpty lhs
  | [single] => grammar.addUnary lhs single
  | [left, right] => grammar.addBinary lhs left right
  | left :: right :: rest =>
    let (grammar, joined) := grammar.intermediate lhsName left right
    (grammar.addBinary joined left right).addRest lhsName lhs joined rest

/-- Adds a production by names, declaring them from left to right. -/
def addRule (grammar : Grammar) (lhsName : String) (rhsNames : List String) : Grammar :=
  let (grammar, lhs) := grammar.addSymbol lhsName
  let (grammar, rhs) := grammar.addSymbols rhsNames
  grammar.addProduction lhsName lhs rhs

/-- Takes away the production of a symbol from two of itself; the flag tells whether it was there.
The symbol stays transitive. -/
def removeSelfRule (grammar : Grammar) (symbol : Symbol) : Grammar × Bool :=
  let selfRule : BinaryRule := ⟨symbol, symbol, symbol⟩
  ({ grammar with binary := grammar.binary.filter (· != selfRule) }, grammar.binary.contains selfRule)

/-- Whether a binary production begins with the symbol. -/
def hasLeftOperand (grammar : Grammar) (symbol : Symbol) : Bool :=
  grammar.binary.any (·.left == symbol)

/-- The symbols on the left of some production. -/
def nonterminals (grammar : Grammar) : Std.TreeSet Symbol :=
  ((grammar.nullable.insertMany (grammar.unary.map (·.lhs))).insertMany
    (grammar.binary.map (·.lhs))).erase Symbol.fault

end Grammar

end GrammarReach
