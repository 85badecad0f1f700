import GrammarReach.CommandLine.Run

namespace GrammarReach.CommandLine

/-- Why the operating system refused something. -/
def refusal : IO.Error → FileFault
  | .noFileOrDirectory .. => .missing
  | error => .other (toString error)

/-- Does something with files. -/
def attempt {α : Type} (action : IO α) : ExceptT FileFault IO α := ExceptT.mk do
  try return .ok (← action) catch error => return .error (refusal error)

/-- The world of the process. -/
def process : System IO where
  read path := do
    match String.fromUTF8? (← attempt (IO.FS.readBinFile path)) with
    | some text => return text
    | none => throw .notText
  write path text := attempt (IO.FS.writeFile path text)
  print text := do
    let output ← IO.getStdout
    output.putStr text
    output.flush
  note text := IO.eprintln text
  now := IO.monoNanosNow

end GrammarReach.CommandLine

/-- Runs the words of the command line, and tells on the error output why it fails. -/
def main (words : List String) : IO UInt32 := do
  let ending ← GrammarReach.CommandLine.run GrammarReach.CommandLine.process words
  if let some message := ending.message? then IO.eprintln message
  return ending.status
