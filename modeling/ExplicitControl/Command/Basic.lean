import ExplicitControl.Command.Session
import ExplicitControl.Diagnostic.Docs

/-!
The command line: running a tree file, explaining an error code, and saying how to do so.
-/

namespace ExplicitControl

inductive Command where
  | usage
  | version
  /-- A run without any arguments. -/
  | runUsage
  | run (path : String) (options : RunOptions)
  /-- A run whose arguments are not understood; `hint` if its usage is to be told. -/
  | badArguments (error : ArgumentError) (hint : Bool)
  /-- An explanation of no code. -/
  | explainUsage
  | explain (code : String)
  | unknown (command : String)

namespace Command

/-- The last component of a path, unless that is the parent directory. Empty components and those that mean
the same directory do not count. -/
def fileName? (path : String) : Option String :=
  let components := (path.splitToList (· == '/')).filter fun c => !c.isEmpty && c != "."
  components.getLast?.filter fun c => c != ".."

/-- The part of a file name after its last point, if something stands before that point. -/
def extension? (path : String) : Option String :=
  (fileName? path).bind fun name =>
    let cs := name.toList.reverse
    let after := cs.takeWhile fun c => c != '.'
    if after.length + 1 < cs.length then some (String.ofList after.reverse) else none

def isTreePath (path : String) : Bool :=
  (extension? path).any fun e => String.ofList (e.toList.map Char.toLower) == "json"

def ofArgs : List String → Command
  | [] => usage
  | command :: rest =>
    if command == "run" then
      if rest.isEmpty then runUsage
      else
        match RunOptions.parse rest with
        | .ok (path, options) => run path options
        | .error e => badArguments e true
    else if ["help", "--help", "-h"].contains command then usage
    else if ["version", "--version", "-V"].contains command then version
    else if ["--explain", "explain"].contains command then
      match rest with
      | [] => explainUsage
      | code :: _ => explain code
    else if isTreePath command then
      match RunOptions.parse (command :: rest) with
      | .ok (path, options) => run path options
      | .error e => badArguments e false
    else unknown command

def usageText : String :=
  ErrorCode.ofLines [
    "Sable - explicit-control evaluator",
    "",
    "Usage: sable <command> [options]",
    "",
    "Commands:",
    "  run <ast.json>       Evaluate a syntax tree",
    "  explain <code>       Explain an error code (e.g., E7301)",
    "  help                 Show this help message",
    "  version              Show version information"]

def runUsageText : String :=
  ErrorCode.ofLines [
    "Usage: sable run <ast.json> [options]",
    "",
    "Options:",
    "  --max-depth <n>     Maximum call depth (default: 10000)",
    "  --steps <n>         Stop after n evaluation steps",
    "  --timeout-ms <ms>   Stop after a wall-clock budget",
    "  --native            Host coercions instead of runtime type checks",
    "  --break <offset>    Pause before the statement starting at offset",
    "  --source <file>     Source text, for line:col locations",
    "  --trace-tree        Hierarchical debug tracing on stderr",
    "  -v, --verbose       Verbose diagnostics (call chain, notes)"]

def explainReply (code : String) : Reply :=
  match ErrorCode.parse? code with
  | some code => ⟨0, code.doc ++ "\n", ""⟩
  | none =>
    ⟨1, "", ErrorCode.ofLines [
      "Unknown error code: " ++ code,
      "",
      "Codes have the format EXXXX where X is a digit.",
      "Examples: E7001, E7102, E7301"]⟩

/-- The first turn of a command; only a run has more than one. -/
def start (read : String → FileText) (clock : Nat → Nat) : Command → Turn
  | usage => ⟨usageText, "", .exited 0⟩
  | version => ⟨"Sable 0.1.0-alpha.1\n", "", .exited 0⟩
  | runUsage => ⟨"", runUsageText, .exited 1⟩
  | run path options => Session.start read path options clock
  | badArguments e hint =>
    ⟨"", "error: " ++ e.message ++ "\n" ++ (if hint then "\n" ++ runUsageText else ""), .exited 1⟩
  | explainUsage =>
    ⟨"", "Usage: sable explain <ERROR_CODE>\nExample: sable explain E7301\n", .exited 1⟩
  | explain code =>
    let reply := explainReply code
    ⟨reply.stdout, reply.stderr, .exited reply.code⟩
  | unknown command => ⟨usageText, "Unknown command: " ++ command ++ "\n\n", .exited 1⟩

def reply (read : String → FileText) (input : List String) (c : Command) : Reply :=
  Session.finish maxFuel input ⟨0, "", ""⟩ (c.start read stillClock)

def files : Command → List String
  | run path options => path :: options.source.toList
  | _ => []

end Command

end ExplicitControl
