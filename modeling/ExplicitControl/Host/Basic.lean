import ExplicitControl.EvalError
import ExplicitControl.Output

/-!
Host functions: what a program can call but does not contain. A host function runs to its end at once. It
may print, change arrays and objects, and fail.
-/

namespace ExplicitControl

inductive HostError where
  /-- An error of evaluation, passed on as it is. -/
  | eval (error : EvalError)
  /-- Anything else, to be told as a failure of the function. -/
  | failed (message : String)
deriving Inhabited

def HostError.message (h : Heap) : HostError → String
  | eval error => error.message h
  | failed message => message

structure HostState where
  heap : Heap
  output : Output
deriving Inhabited

abbrev HostM := EStateM HostError HostState

abbrev HostBody := Option Value → List Value → HostM Value

structure EmbeddedFunction where
  name : String
  arity : Arity
  body : HostBody

def HostFunction.inspect (f : HostFunction) : String :=
  "HostFunction \x7b name: " ++ Text.quote f.name ++ ", arity: " ++ f.arity.inspect ++ ", .. \x7d"

end ExplicitControl
