import ExplicitControl.Command.Basic

/-!
The program: reads the files that a command names, and prints what its turns say. The clock is looked at
between spells of steps.
-/

namespace ExplicitControl

def readFileText (path : String) : IO FileText := do
  try
    let bytes ← IO.FS.readBinFile path
    match String.fromUTF8? bytes with
    | some s => return .text s
    | none => return .invalidUtf8
  catch e =>
    match e with
    | .noFileOrDirectory .. => return .notFound
    | .permissionDenied .. => return .permissionDenied
    | e => return .failed (toString e)

def readFiles (paths : List String) : IO (String → FileText) := do
  let texts ← paths.mapM fun path => return (path, ← readFileText path)
  return fun path =>
    match texts.find? fun entry => entry.1 == path with
    | some entry => entry.2
    | none => .notFound

def readLine? : IO (Option String) := do
  let line ← (← IO.getStdin).getLine
  return if line.isEmpty then none else some line

/-- The number of steps between two looks at the clock. -/
def spell : Nat := 4096

/-- Print a turn and take the next; `spent` is the time spent running, in nanoseconds. -/
partial def playTurns (spent : Nat) (t : Turn) : IO UInt32 := do
  let stdout ← IO.getStdout
  stdout.putStr t.stdout
  stdout.flush
  IO.eprint t.stderr
  match t.next with
  | .exited code => return code.toUInt32
  | .asking s => playTurns spent (s.answer (← readLine?))
  | .running s =>
    let began ← IO.monoNanosNow
    let clock := fun (_ : Nat) => spent + 1
    let t := { s with machine := s.machine.withClock clock }.advance spell (← (← IO.getStderr).isTty)
    let ended ← IO.monoNanosNow
    playTurns (spent + (ended - began)) t

end ExplicitControl

open ExplicitControl in
def main (args : List String) : IO UInt32 := do
  let command := Command.ofArgs args
  playTurns 0 (command.start (← readFiles command.files) stillClock)
