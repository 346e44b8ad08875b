import ExplicitControl.Command.Evaluation
import ExplicitControl.Diagnostic.OfError
import ExplicitControl.Diagnostic.Report
import ExplicitControl.Text.Blank
import ExplicitControl.Tree.Decode
import ExplicitControl.Tree.NamesPlace

/-!
A run of a tree file at a terminal. The run goes on until it ends or pauses; at a pause the user is asked
whether to go on, and the end of the input counts as consent. A session is a sequence of turns, each of which
says what to print and what to do next, so that the terminal itself need only read and print.
-/

namespace ExplicitControl

inductive FileText where
  | text (s : String)
  | notFound
  | permissionDenied
  | invalidUtf8
  | failed (reason : String)

def FileText.toExcept (path : String) : FileText → Except String String
  | text s => .ok s
  | notFound => .error ("cannot find file '" ++ path ++ "'")
  | permissionDenied => .error ("permission denied reading '" ++ path ++ "'")
  | invalidUtf8 => .error ("'" ++ path ++ "' contains invalid UTF-8 data")
  | failed reason => .error ("error reading '" ++ path ++ "': " ++ reason)

structure Session where
  machine : Machine Unit
  options : RunOptions
  source : Option SourceText

inductive Phase where
  | running (s : Session)
  /-- Wait for a line of input. -/
  | asking (s : Session)
  | exited (code : Nat)

structure Turn where
  stdout : String
  stderr : String
  next : Phase

namespace Session

def quit (message : String) : Turn :=
  ⟨"", message ++ "\n", .exited 1⟩

/-- What is said of a text that is no tree. A fault met while reading has a place in the text; one found
afterwards, in the whole tree, has none. -/
def loadMessage (path text : String) (e : LoadError) : String :=
  let place :=
    match e with
    | .duplicateName _ => NamesPlace.text text
    | _ => ""
  "error: " ++ path ++ ": " ++ e.message?.getD "invalid syntax tree: malformed document" ++ place

def readSource (read : String → FileText) (options : RunOptions) :
    Except String (Option SourceText) :=
  match options.source with
  | none => .ok none
  | some path => do
    let text ← (read path).toExcept path
    return some (SourceText.ofString path text)

def start (read : String → FileText) (path : String) (options : RunOptions)
    (clock : Nat → Nat) : Turn :=
  match (read path).toExcept path with
  | .error message => quit message
  | .ok text =>
    match Tree.parse text with
    | .error e => quit (loadMessage path text e)
    | .ok t =>
      match readSource read options with
      | .error message => quit message
      | .ok source =>
        ⟨"", "", .running ⟨options.machine t (.captured "") clock, options, source⟩⟩

def location (s : Session) (node : NodeId) : String :=
  let span := s.machine.setting.tree.span node
  match s.source with
  | some source => source.location span
  | none => "offset " ++ span.text

def report (s : Session) (e : EvalError) (h : Heap) (isTerminal : Bool) : String :=
  let style : ReportStyle := ⟨ColorMode.auto.useColors isTerminal, s.options.verbose, s.source⟩
  style.render (e.toDiagnostic h)

/-- Run on, for at most `fuel` steps. -/
def advance (s : Session) (fuel : Nat) (isTerminal : Bool) : Turn :=
  match s with
  | ⟨m, options, source⟩ =>
    match m.run fuel with
    | .running m => ⟨m.state.output.text, "", .running ⟨m.clearOutput, options, source⟩⟩
    | .finished v m =>
      ⟨m.state.output.text ++ m.state.heap.stringify v ++ "\n", "", .exited 0⟩
    | .paused node m =>
      let s : Session := ⟨m.clearOutput, options, source⟩
      ⟨m.state.output.text, "paused at " ++ s.location node ++ " (c: continue, q: quit)\n",
        .asking s⟩
    | .failed e m =>
      let s : Session := ⟨m, options, source⟩
      ⟨m.state.output.text, s.report e m.state.heap isTerminal, .exited e.fault.exitCode⟩

def answer (s : Session) : Option String → Turn
  | none => ⟨"", "", .running s⟩
  | some line =>
    let word := String.ofList (Text.trimBlanks line.toList)
    if word == "c" || word == "continue" then ⟨"", "", .running s⟩
    else if word == "q" || word == "quit" then ⟨"", "", .exited 0⟩
    else ⟨"", "type c to continue or q to quit\n", .asking s⟩

end Session

structure Reply where
  code : Nat
  stdout : String
  stderr : String
deriving DecidableEq

namespace Session

/-- The lines of an input text; the last may end without a newline. -/
def inputLines (text : String) : List String :=
  let lines := text.splitToList (· == '\n')
  if lines.getLast? == some "" then lines.dropLast else lines

/-- Go on from a turn to the end, with the lines of input that are left; after `turns` turns the session is
left alone. -/
def finish (turns : Nat) (input : List String) (so : Reply) (t : Turn) : Reply :=
  let so : Reply := { so with stdout := so.stdout ++ t.stdout, stderr := so.stderr ++ t.stderr }
  match turns, t.next with
  | 0, _ => so
  | _, .exited code => { so with code }
  | turns + 1, .running s => finish turns input so (s.advance maxFuel false)
  | turns + 1, .asking s => finish turns input.tail so (s.answer input.head?)

end Session

end ExplicitControl
