import GrammarReach.Analysis.Basic

/-!
Context-sensitive value-flow analysis of an interprocedural value-flow graph.

The graph has flows `a` within a procedure, which are direct, and edges `call_i` and `ret_i` into and
out of a procedure, with the call site for an index. A value flows along `A`, where every return
matches the call that it came through:

    A    ::= A A | a | Cl_i ret_i | (empty)
    Cl_i ::= call_i A

A line with the label `src` marks a node as a source, and sources outlive the folding of chains.
-/

namespace GrammarReach.ValueFlow

def grammar : Grammar :=
  let rules : List (String × List String) :=
    [("A", ["A", "A"]), ("Cl_i", ["call_i", "A"]), ("A", ["Cl_i", "ret_i"]), ("A", ["a"]),
     ("A", [])]
  rules.foldl (fun grammar (lhs, rhs) => grammar.addRule lhs rhs) .empty

def symbol (name : String) : Symbol := (grammar.find? name).getD Symbol.fault

/-- Flow within a procedure. -/
def direct : Symbol := symbol "a"
def call : Symbol := symbol "call_i"
def ret : Symbol := symbol "ret_i"
def flow : Symbol := symbol "A"

/-- The label of the lines that mark a source. -/
def marker : String := "src"

/-- What the lines of a value-flow graph mean. -/
def format : EdgeListFormat :=
  { direct := ["a"], accepted? := some ["a", "call_i", "ret_i"], marker? := some marker }

def emptyGraph : Multigraph := .withDirectKinds [direct]

/-- The value-flow analysis of a graph. For pruning, calls count as reversed returns, so that a call
and a return of one site that can match meet at one node. -/
def analysis (graph : Multigraph) : Analysis :=
  { name := "vfa"
    grammar
    graph
    profile := { brackets := .ofList [call, ret], flips := .ofList [(call, ret)] }
    brackets := [{ result := flow, opening := call, inner := flow, closing := ret }]
    seedEdges := fun edge => [Analysis.ownSeed grammar edge]
    countSymbol? := some flow
    marker? := some marker }

def read (text : String) : Except Error Analysis := return analysis (← format.read grammar text)

/-- Adds a flow within a procedure; one of a node to itself is dropped. -/
def addFlow (graph : Multigraph) (src dst : Node) : Multigraph :=
  (graph.addEdge ⟨src, dst, .plain direct⟩).1

/-- Adds a call from a site. -/
def addCall (graph : Multigraph) (src dst : Node) (site : Nat) : Multigraph :=
  (graph.addEdge ⟨src, dst, ⟨call, site⟩⟩).1

/-- Adds a return to a site. -/
def addReturn (graph : Multigraph) (src dst : Node) (site : Nat) : Multigraph :=
  (graph.addEdge ⟨src, dst, ⟨ret, site⟩⟩).1

end GrammarReach.ValueFlow
