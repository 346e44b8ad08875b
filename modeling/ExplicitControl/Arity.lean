/-!
How many arguments a callable accepts.
-/

namespace ExplicitControl

inductive Arity where
  | exact (n : Nat)
  | atLeast (n : Nat)
  | atMost (n : Nat)
deriving DecidableEq, Inhabited

namespace Arity

def accepts : Arity → Nat → Bool
  | exact n, count => count == n
  | atLeast n, count => n ≤ count
  | atMost n, count => count ≤ n

def countText (n : Nat) : String :=
  toString n ++ " argument" ++ (if n = 1 then "" else "s")

def text : Arity → String
  | exact n => countText n
  | atLeast n => "at least " ++ countText n
  | atMost n => "at most " ++ countText n

def inspect : Arity → String
  | exact n => "Exact(" ++ toString n ++ ")"
  | atLeast n => "AtLeast(" ++ toString n ++ ")"
  | atMost n => "AtMost(" ++ toString n ++ ")"

end Arity

end ExplicitControl
