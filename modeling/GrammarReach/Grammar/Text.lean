import GrammarReach.Grammar.Derivation
import GrammarReach.Text.Record

/-!
The text form of a grammar: one production a line, the left-hand side first, tabs between names.

Writing lists the empty productions, then the unary, then the binary ones, each kind sorted by name.
-/

namespace GrammarReach

namespace Grammar

/-- Adds the production of a record. -/
def addRecord (grammar : Grammar) (record : Text.Record) : Except Error Grammar :=
  if record.fields.any (·.isEmpty) then .error (.parse record.line .emptySymbolName)
  else
    match record.fields with
    | [] => .ok grammar
    | lhs :: rhs => .ok (grammar.addRule lhs rhs)

/-- Reads a grammar from its text. -/
def parse (text : String) : Except Error Grammar :=
  (Text.records text).foldlM addRecord empty

/-- The productions of at most two symbols as lists of names: the left-hand side, then the rest. -/
def namedRules (grammar : Grammar) : List (List String) :=
  let sorted (rules : List (List Symbol)) : List (List String) :=
    (rules.map fun rule => rule.map grammar.nameOrFault).mergeSort fun a b =>
      @decide _ (List.decidableLE a b)
  sorted (grammar.nullable.toList.map ([·])) ++
    sorted (grammar.unary.map fun rule => [rule.lhs, rule.rhs]) ++
    sorted (grammar.binary.map fun rule => [rule.lhs, rule.left, rule.right])

def toText (grammar : Grammar) : String :=
  String.join (grammar.namedRules.map fun names => "\t".intercalate names ++ "\n")

end Grammar

/-- How large the tables of a grammar are. -/
structure GrammarStats where
  symbols : Nat
  variants : Nat
  transitive : Nat
  emptyRules : Nat
  unaryRules : Nat
  binaryRules : Nat

def Grammar.stats (grammar : Grammar) : GrammarStats :=
  { symbols := grammar.size
    variants := grammar.names.countP isVariantName
    transitive := grammar.transitive.size
    emptyRules := grammar.nullable.size
    unaryRules := grammar.unary.length
    binaryRules := grammar.binary.length }

end GrammarReach
