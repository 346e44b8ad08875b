import ExplicitControl.EvalError

/-!
The stash: the values that pending work waits for. Operations that need more values than there are fail and
leave the stash as it was.
-/

namespace ExplicitControl

abbrev Stash := List Value

abbrev StashM := EStateM Fault Stash

namespace Stash

def push (v : Value) : StashM Unit := fun s =>
  .ok () (v :: s)

def pop : StashM Value
  | [] => .error .stashUnderflow []
  | v :: rest => .ok v rest

/-- Take the topmost `n` values, deepest first. -/
def popN (n : Nat) : StashM (List Value) := fun s =>
  let taken := s.take n
  if taken.length = n then .ok taken.reverse (s.drop n) else .error .stashUnderflow s

def peek : StashM Value
  | [] => .error .stashUnderflow []
  | v :: rest => .ok v (v :: rest)

def replaceTop (v : Value) : StashM Unit
  | [] => .error .stashUnderflow []
  | _ :: rest => .ok () (v :: rest)

def inspect (s : Stash) (h : Heap) : String :=
  "Stash \x7b values: [" ++ ", ".intercalate (s.reverse.map h.stringify) ++ "] \x7d"

end Stash

end ExplicitControl
