import ExplicitControl.Machine.Run

/-!
What an inspector shows of functions, of pending work and of a paused machine.
-/

namespace ExplicitControl

namespace Closure

def inspect (f : Closure) (s : Scopes) : String :=
  "Closure \x7b node: " ++ f.node.text ++ ", arity: " ++ toString f.arity ++ ", env: " ++
    s.inspect f.env ++ ", .. \x7d"

end Closure

namespace Snapshot

def inspect (kept : Snapshot) (s : Scopes) : String :=
  "Continuation \x7b agenda: " ++ toString kept.agenda.length ++ ", stash: " ++
    toString kept.stash.length ++ ", env: " ++ s.inspect kept.env ++ " \x7d depth " ++
    toString kept.calls.depth

end Snapshot

def State.inspectFunction? (s : State) : Value → Option String
  | .closure _ f => some (f.inspect s.scopes)
  | .host _ f => some f.inspect
  | .continuation index => s.snapshots[index]?.map fun kept => kept.inspect s.scopes
  | _ => none

def inspectRecord (name contents : String) : String :=
  name ++ " \x7b " ++ contents ++ " \x7d"

/-- An instruction with what it holds; one that holds more than a few words is only described. -/
def Instr.inspect (h : Heap) : Instr → String
  | reset => "Reset"
  | pop => "Pop"
  | push v => "Push(" ++ h.stringify v ++ ")"
  | pushUndefinedIfNeeded => "PushUndefinedIfNeeded"
  | marker .call => "Marker(Call)"
  | marker .loopEnd => "Marker(Break)"
  | marker .tripEnd => "Marker(Continue)"
  | breakLoop node => inspectRecord "Break" ("node: " ++ node.text)
  | continueLoop node => inspectRecord "Continue" ("node: " ++ node.text)
  | apply arity hasReceiver node =>
    inspectRecord "Application" ("arity: " ++ toString arity ++ ", receiver: " ++
      (if hasReceiver then "true" else "false") ++ ", node: " ++ node.text)
  | other => other.describe

def Item.inspect (h : Heap) : Item → String
  | node id => "Node(" ++ id.text ++ ")"
  | instr i => "Instr(" ++ i.inspect h ++ ")"

def Machine.inspectPause {σ : Type} (m : Machine σ) (node : NodeId) : String :=
  inspectRecord "Suspended" ("node: " ++ node.text ++ ", machine: " ++ m.state.inspect)

end ExplicitControl
