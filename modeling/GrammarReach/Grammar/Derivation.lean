import GrammarReach.Components
import GrammarReach.Grammar.Basic

/-!
What one edge, or two edges in a row, derive.

A production with two variant operands fires only when their indices agree. A variant left-hand side
inherits the index of a variant operand; every other left-hand side bears none.
-/

namespace GrammarReach

namespace Grammar

/-- The label of a left-hand side that may inherit an index. -/
def inherit (grammar : Grammar) (lhs : Symbol) (index? : Option Nat) : Label :=
  match index? with
  | some index => grammar.label lhs index
  | none => .plain lhs

/-- The index that an edge under the label has to pass on. -/
def ownIndex? (grammar : Grammar) (label : Label) : Option Nat :=
  if grammar.isVariant label.symbol then some label.index else none

/-- The labels that one edge derives, in the order of the productions. -/
def derivedUnary (grammar : Grammar) (label : Label) : List Label :=
  (grammar.unary.filter fun rule => rule.rhs == label.symbol && rule.lhs != Symbol.fault).map
    fun rule => grammar.inherit rule.lhs (grammar.ownIndex? label)

/-- Whether two adjacent labels agree on their index: they do when one of them has none. -/
def agree (grammar : Grammar) (left right : Label) : Bool :=
  !(grammar.isVariant left.symbol && grammar.isVariant right.symbol) || left.index == right.index

/-- The labels that two edges in a row derive, in the order of the productions. -/
def derivedBinary (grammar : Grammar) (left right : Label) : List Label :=
  if grammar.agree left right then
    let index? := (grammar.ownIndex? left).or (grammar.ownIndex? right)
    (grammar.binary.filter fun rule =>
      rule.left == left.symbol && rule.right == right.symbol && rule.lhs != Symbol.fault).map
      fun rule => grammar.inherit rule.lhs index?
  else []

/-- The cycles of unary productions, from a right-hand side to its left-hand side: each ascending,
all of them in ascending order. A symbol with a production from itself alone is a cycle too. -/
def unaryCycles (grammar : Grammar) : List (List Symbol) :=
  let components := Components.ofEdges (grammar.unary.map fun rule => (rule.rhs, rule.lhs))
  (components.cycles ++ components.loops.map ([·])).mergeSort fun a b =>
    @decide _ (List.decidableLE a b)

end Grammar

/-- A shortcut for a matched pair of brackets: an edge under `result` spans an edge under `opening`,
one under `inner` and one under `closing` whose indices match. -/
structure BracketRule where
  result : Symbol
  opening : Symbol
  inner : Symbol
  closing : Symbol
deriving DecidableEq

namespace BracketRule

/-- The shortcut of four names. -/
def ofNames (grammar : Grammar) (result opening inner closing : String) :
    Except Error BracketRule := do
  let opening ← grammar.lookup opening
  let inner ← grammar.lookup inner
  let closing ← grammar.lookup closing
  let result ← grammar.lookup result
  return { result, opening, inner, closing }

end BracketRule

end GrammarReach
