import GrammarReach.Error

/-!
Deadlines, as a limit on a clock that the solver reads while it works.

The clock tells the time passed since the start, in nanoseconds, at every tick of the work. A solver
reads it at each generation, or at every `interval`-th edge taken from its worklist.
-/

namespace GrammarReach

/-- A limit in nanoseconds, and the time passed at each tick. -/
structure Deadline where
  limit? : Option Nat := none
  clock : Nat → Nat := fun _ => 0

namespace Deadline

/-- The number of edges between two looks at the clock. -/
def interval : Nat := 256

def unlimited : Deadline := {}

/-- A limit in nanoseconds, from one in seconds. -/
def nanoseconds? (seconds? : Option Nat) : Option Nat := seconds?.map (· * Nat.pow 10 9)

/-- The deadline of a number of seconds on a clock. -/
def ofSeconds? (seconds? : Option Nat) (clock : Nat → Nat) : Deadline :=
  { limit? := nanoseconds? seconds?, clock }

/-- Whether more time has passed than the limit allows. -/
def expired (deadline : Deadline) (tick : Nat) : Bool := deadline.limit?.any (· < deadline.clock tick)

/-- The error of a deadline that has expired at a tick. -/
def timeout (deadline : Deadline) (tick : Nat) : Error := .timeout (deadline.clock tick / Nat.pow 10 6)

def check (deadline : Deadline) (tick : Nat) : Except Error Unit :=
  if deadline.expired tick then .error (deadline.timeout tick) else .ok ()

/-- Whether the clock is looked at at this tick, and the deadline has expired. -/
def stops (deadline : Deadline) (tick : Nat) : Bool := tick % interval == 0 && deadline.expired tick

/-- Looks at the clock at every `interval`-th tick only. -/
def checkEvery (deadline : Deadline) (tick : Nat) : Except Error Unit :=
  if deadline.stops tick then .error (deadline.timeout tick) else .ok ()

end Deadline

end GrammarReach
