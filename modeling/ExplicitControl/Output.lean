/-!
Where printed lines go.
-/

namespace ExplicitControl

inductive Output where
  /-- The lines are kept. -/
  | captured (text : String)
  /-- The lines are dropped. -/
  | silent
deriving DecidableEq, Inhabited

namespace Output

def println (o : Output) (line : String) : Output :=
  match o with
  | captured text => captured (text ++ line ++ "\n")
  | silent => silent

def text : Output → String
  | captured text => text
  | silent => ""

def clear : Output → Output
  | captured _ => captured ""
  | silent => silent

end Output

end ExplicitControl
