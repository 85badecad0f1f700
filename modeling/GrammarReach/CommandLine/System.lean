import GrammarReach.Decimal.Binary64
import GrammarReach.Error

namespace GrammarReach.CommandLine

/-- The world around a command, whose effects are those of a monad. -/
structure System (m : Type → Type) where
  /-- Reads the text of a file. -/
  read : String → ExceptT FileFault m String
  /-- Writes the text of a file, in place of what the file held. -/
  write : String → String → ExceptT FileFault m Unit
  /-- Prints to the output. -/
  print : String → m Unit
  /-- Tells the user what is going on. -/
  note : String → m Unit
  /-- The time on the clock, in nanoseconds. -/
  now : m Nat

namespace System

variable {m : Type → Type} [Monad m]

/-- Does something and tells how many milliseconds it took. -/
def timed {α : Type} (system : System m) (action : Unit → m α) : m (α × Decimal.Binary64) := do
  let begun ← system.now
  let value ← action ()
  let ended ← system.now
  return (value, .ofRatio false (ended - begun) (Nat.pow 10 6))

/-- The clock as it would be, had it started from zero at a time. -/
def since (system : System m) (begun : Nat) : m Nat := return (← system.now) - begun

end System

end GrammarReach.CommandLine
