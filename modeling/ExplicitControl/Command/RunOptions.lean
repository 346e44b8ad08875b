import ExplicitControl.Decimal.Reader
import ExplicitControl.Machine.State

/-!
The arguments of a run: the path of a tree and options, each option that takes a value as `--flag value` or
as `--flag=value`.
-/

namespace ExplicitControl

structure RunOptions where
  maxDepth : Option Nat
  steps : Option Nat
  /-- In milliseconds. -/
  timeout : Option Nat
  /-- Convert operands instead of checking them. -/
  native : Bool
  verbose : Bool
  /-- The offsets of the statements to pause before. -/
  breakpoints : List UInt32
  traceTree : Bool
  /-- The source text that the tree was made from. -/
  source : Option String
deriving DecidableEq

inductive ArgumentError where
  | missingValue (flag : String)
  | notANumber (flag value : String)
  | unknownOption (flag : String)
  | unexpectedArgument (argument : String)
  | missingPath
deriving DecidableEq

def ArgumentError.message : ArgumentError → String
  | missingValue flag => flag ++ " expects a value"
  | notANumber flag value => flag ++ " expects a non-negative integer, got '" ++ value ++ "'"
  | unknownOption flag => "unknown option '" ++ flag ++ "'"
  | unexpectedArgument argument => "unexpected argument '" ++ argument ++ "'"
  | missingPath => "missing syntax tree path"

inductive ValueFlag where
  | maxDepth | steps | timeoutMs | breakAt | source
deriving DecidableEq

def ValueFlag.all : List ValueFlag := [.maxDepth, .steps, .timeoutMs, .breakAt, .source]

def ValueFlag.text : ValueFlag → String
  | maxDepth => "--max-depth"
  | steps => "--steps"
  | timeoutMs => "--timeout-ms"
  | breakAt => "--break"
  | source => "--source"

namespace RunOptions

def empty : RunOptions :=
  ⟨none, none, none, false, false, [], false, none⟩

def config (o : RunOptions) : Config :=
  { Config.standard with
    maxCallDepth := o.maxDepth.getD Config.standard.maxCallDepth
    stepLimit := o.steps
    timeLimit := o.timeout
    language := if o.native then .native else Config.standard.language }

def number (flag : ValueFlag) (max : Nat) (value : String) : Except ArgumentError Nat :=
  match Decimal.readNat? max value with
  | some n => .ok n
  | none => .error (.notANumber flag.text value)

def maxWord : Nat := 18446744073709551615

def setValue (o : RunOptions) (flag : ValueFlag) (value : String) : Except ArgumentError RunOptions :=
  match flag with
  | .maxDepth => do return { o with maxDepth := some (← number flag maxWord value) }
  | .steps => do return { o with steps := some (← number flag maxWord value) }
  | .timeoutMs => do return { o with timeout := some (← number flag maxWord value) }
  | .breakAt => do
    return { o with breakpoints := o.breakpoints ++ [(← number flag 4294967295 value).toUInt32] }
  | .source => .ok { o with source := some value }

def setBare? (o : RunOptions) (flag : String) : Option RunOptions :=
  if flag == "--native" then some { o with native := true }
  else if flag == "--verbose" || flag == "-v" then some { o with verbose := true }
  else if flag == "--trace-tree" then some { o with traceTree := true }
  else none

/-- An argument as a flag and the value written with it. Only a long flag has its value after an equals
sign. -/
def splitArgument (argument : String) : String × Option String :=
  let cs := argument.toList
  let flag := cs.takeWhile fun c => c != '='
  match cs.drop flag.length with
  | _ :: value =>
    if flag.take 2 = ['-', '-'] then (String.ofList flag, some (String.ofList value))
    else (argument, none)
  | [] => (argument, none)

/-- The path given so far and the options given so far, with the arguments still to be read. A value written
with a flag that takes none is passed over. -/
def parseFrom (path : Option String) (o : RunOptions) :
    List String → Except ArgumentError (Option String × RunOptions)
  | [] => .ok (path, o)
  | argument :: rest =>
    let (flag, inline) := splitArgument argument
    match o.setBare? flag with
    | some o => parseFrom path o rest
    | none =>
      match ValueFlag.all.find? fun f => f.text == flag with
      | some f =>
        match inline, rest with
        | some value, rest =>
          match o.setValue f value with
          | .ok o => parseFrom path o rest
          | .error e => .error e
        | none, value :: rest =>
          match o.setValue f value with
          | .ok o => parseFrom path o rest
          | .error e => .error e
        | none, [] => .error (.missingValue flag)
      | none =>
        if flag.toList.head? = some '-' then .error (.unknownOption flag)
        else
          match path with
          | none => parseFrom (some argument) o rest
          | some _ => .error (.unexpectedArgument argument)

def parse (args : List String) : Except ArgumentError (String × RunOptions) :=
  match parseFrom none empty args with
  | .error e => .error e
  | .ok (some path, o) => .ok (path, o)
  | .ok (none, _) => .error .missingPath

end RunOptions

end ExplicitControl
