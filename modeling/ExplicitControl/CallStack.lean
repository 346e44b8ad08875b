import ExplicitControl.EvalError

/-!
The live calls. The evaluator keeps nothing on a stack of its own, so this is the only record of who called
whom; it serves to bound the depth of calls and to explain errors.
-/

namespace ExplicitControl

/-- The live calls, most recent last, with the bound on their number and the number of them that an error
tells. -/
structure CallStack where
  frames : Array CallFrame
  maxDepth : Nat
  traceFrames : Nat
deriving Inhabited

namespace CallStack

def initial (maxDepth traceFrames : Nat) : CallStack :=
  ⟨#[], maxDepth, traceFrames⟩

def depth (c : CallStack) : Nat :=
  c.frames.size

def isEmpty (c : CallStack) : Bool :=
  c.frames.isEmpty

/-- The error of a call that does not fit. It tells the most recent calls, that call being one of them. -/
def overflow (c : CallStack) (frame : CallFrame) : EvalError :=
  let recent := c.frames.toList.drop (c.depth - (c.traceFrames - 1))
  { EvalError.ofFault (.stackOverflow c.maxDepth (recent ++ [frame])) with span := some frame.span }

def push (frame : CallFrame) : EStateM EvalError CallStack Unit := fun c =>
  if c.maxDepth ≤ c.depth then .error (c.overflow frame) c
  else .ok () { c with frames := c.frames.push frame }

/-- Put a call in the place of the most recent one, which it ends. -/
def replaceTop (c : CallStack) (frame : CallFrame) : CallStack :=
  { c with frames := c.frames.pop.push frame }

def pop (c : CallStack) : CallStack :=
  { c with frames := c.frames.pop }

def capture (c : CallStack) : Backtrace :=
  ⟨c.frames.toList.reverse.take c.traceFrames⟩

/-- Tell an error's live calls, unless there are none or they are told already. -/
def attachBacktrace (c : CallStack) (e : EvalError) : EvalError :=
  if c.isEmpty || e.backtrace.isSome then e else { e with backtrace := some c.capture }

end CallStack

end ExplicitControl
