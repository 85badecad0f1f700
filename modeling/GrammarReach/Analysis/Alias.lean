import GrammarReach.Analysis.Basic

/-!
Field-sensitive alias analysis of a program expression graph.

The graph has assignments `a` (`dst = src`), which are direct, dereferences `d` (`dst = *src`) and
field accesses `f_i` (`dst = &src->field`). Every edge is a seed in both directions, backwards under
the barred label. Two nodes may be aliases when `V` relates them:

    V    ::= (empty) | M | Abar V | V A | FV_i f_i
    M    ::= DV d
    DV   ::= dbar V
    FV_i ::= fbar_i V
    A    ::= A A | a | a M
    Abar ::= Abar Abar | abar | M abar

`A` and `Abar` hold on every node, although no production says so. The shortcuts `M ::= dbar V d` and
`V ::= fbar_i V f_i` span what the productions derive in two steps.
-/

namespace GrammarReach.Alias

def grammar : Grammar :=
  let rules : List (String × List String) :=
    [("V", []), ("V", ["M"]), ("V", ["Abar", "V"]), ("V", ["V", "A"]), ("V", ["FV_i", "f_i"]),
     ("M", ["DV", "d"]), ("DV", ["dbar", "V"]), ("FV_i", ["fbar_i", "V"]), ("A", ["A", "A"]),
     ("A", ["a"]), ("A", ["a", "M"]), ("Abar", ["Abar", "Abar"]), ("Abar", ["abar"]),
     ("Abar", ["M", "abar"])]
  rules.foldl (fun grammar (lhs, rhs) => grammar.addRule lhs rhs) .empty

def symbol (name : String) : Symbol := (grammar.find? name).getD Symbol.fault

def assign : Symbol := symbol "a"
def assignBar : Symbol := symbol "abar"
def deref : Symbol := symbol "d"
def derefBar : Symbol := symbol "dbar"
def field : Symbol := symbol "f_i"
def fieldBar : Symbol := symbol "fbar_i"
/-- Value flow through assignments. -/
def assigned : Symbol := symbol "A"
def assignedBar : Symbol := symbol "Abar"
/-- Memory aliases. -/
def matched : Symbol := symbol "M"
def mayAlias : Symbol := symbol "V"

/-- The barred form of the kind of an edge. -/
def bar? (kind : Kind) : Option Symbol :=
  if kind = assign then some assignBar
  else if kind = deref then some derefBar
  else if kind = field then some fieldBar
  else none

/-- The seeds of an edge: itself, and its reverse under the barred label. Edges of other kinds have
none. -/
def seedEdges (edge : Edge) : List Edge :=
  match bar? edge.label.symbol with
  | none => []
  | some bar =>
    [Analysis.ownSeed grammar edge, ⟨edge.dst, edge.src, grammar.label bar edge.label.index⟩]

/-- What the lines of an expression graph mean. -/
def format : EdgeListFormat := { direct := ["a"], accepted? := some ["a", "d", "f_i"] }

def emptyGraph : Multigraph := .withDirectKinds [assign]

def analysis (graph : Multigraph) : Analysis :=
  { name := "alias"
    grammar
    graph
    profile := { brackets := .ofList [deref, field] }
    brackets :=
      [{ result := matched, opening := derefBar, inner := mayAlias, closing := deref },
       { result := mayAlias, opening := fieldBar, inner := mayAlias, closing := field }]
    reflexive := [.plain assigned, .plain assignedBar]
    seedEdges
    countSymbol? := some mayAlias }

def read (text : String) : Except Error Analysis := return analysis (← format.read grammar text)

/-- Adds the assignment `dst = src`; one of a node to itself is dropped. -/
def addAssign (graph : Multigraph) (src dst : Node) : Multigraph :=
  (graph.addEdge ⟨src, dst, .plain assign⟩).1

/-- Adds the dereference `dst = *src`. -/
def addDeref (graph : Multigraph) (src dst : Node) : Multigraph :=
  (graph.addEdge ⟨src, dst, .plain deref⟩).1

/-- Adds the field access `dst = &src->field`. -/
def addField (graph : Multigraph) (src dst : Node) (index : Nat) : Multigraph :=
  (graph.addEdge ⟨src, dst, ⟨field, index⟩⟩).1

end GrammarReach.Alias
