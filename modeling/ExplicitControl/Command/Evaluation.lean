import ExplicitControl.Command.RunOptions
import ExplicitControl.Machine.Run

/-!
The machine that options ask for, and the number of steps after which a run is looked at again.
-/

namespace ExplicitControl

/-- More steps than any run takes. -/
def maxFuel : Nat := Nat.pow 2 62

/-- A clock by which time is always just about to pass: a limit of no time at all is exceeded at the first
look, any other limit never. -/
def stillClock : Nat → Nat := fun _ => 1

/-- The machine of a run with options: it pauses at their breakpoints and at `debugger` statements. -/
def RunOptions.machine (o : RunOptions) (t : Tree) (output : Output) (clock : Nat → Nat) :
    Machine Unit :=
  Machine.build t o.config [] output clock (SpanBreakpoints.ofList o.breakpoints).rule ()

end ExplicitControl
