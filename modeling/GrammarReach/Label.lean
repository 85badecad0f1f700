import Std.Data.TreeMap
import Std.Data.TreeSet

/-!
Edge labels and labeled edges.

A label is a grammar symbol with an index. The index tells the instances of a parametric symbol
apart (a field offset, a call site); it is zero for every other symbol. Labels and edges are ordered
field by field, and the two orders are lawful, so both can serve as keys of ordered maps.
-/

namespace GrammarReach

/-- A graph node is known by its number. -/
abbrev Node := Nat

/-- A grammar symbol is known by its number; declared symbols count from one. -/
abbrev Symbol := Nat

/-- The symbol that stands for the absence of an edge. No edge that bears it is ever stored. -/
def Symbol.fault : Symbol := 0

/-- A grammar symbol and the index of its instance. -/
structure Label where
  symbol : Symbol
  index : Nat
deriving DecidableEq

namespace Label

/-- The label of a symbol that bears no index. -/
def plain (symbol : Symbol) : Label := ⟨symbol, 0⟩

/-- The label that stands for the absence of an edge. -/
def fault : Label := plain Symbol.fault

/-- Whether the label stands for the absence of an edge, whatever its index. -/
def isFault (label : Label) : Bool := label.symbol == Symbol.fault

/-- The symbol number, then the index in square brackets. -/
def render (label : Label) : String := s!"{label.symbol}[{label.index}]"

/-- Labels are ordered by symbol, then by index. -/
instance : Ord Label := ⟨compareLex (compareOn Label.symbol) (compareOn Label.index)⟩

instance : Std.TransOrd Label :=
  inferInstanceAs (Std.TransCmp (compareLex (compareOn Label.symbol) (compareOn Label.index)))

instance : Std.LawfulEqOrd Label where
  eq_of_compare {a b} h := by
    have ⟨symbol, index⟩ := Ordering.then_eq_eq.mp h
    cases a
    cases b
    simp_all [compareOn]

end Label

/-- An edge from `src` to `dst` under `label`. -/
structure Edge where
  src : Node
  dst : Node
  label : Label
deriving DecidableEq

namespace Edge

/-- Edges are ordered by source, then target, then label. -/
instance : Ord Edge :=
  ⟨compareLex (compareOn Edge.src) (compareLex (compareOn Edge.dst) (compareOn Edge.label))⟩

instance : Std.TransOrd Edge :=
  inferInstanceAs (Std.TransCmp
    (compareLex (compareOn Edge.src) (compareLex (compareOn Edge.dst) (compareOn Edge.label))))

instance : Std.LawfulEqOrd Edge where
  eq_of_compare {a b} h := by
    have ⟨src, rest⟩ := Ordering.then_eq_eq.mp h
    have ⟨dst, label⟩ := Ordering.then_eq_eq.mp rest
    cases a
    cases b
    simp_all [compareOn]

/-- Whether `a` stands before or at `b` in the order of edges. -/
def le (a b : Edge) : Bool := (compare a b).isLE

end Edge

end GrammarReach
