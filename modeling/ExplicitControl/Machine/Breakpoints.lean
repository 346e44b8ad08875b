import ExplicitControl.Tree.Basic

/-!
Where a run shall pause. Before it evaluates a node the machine asks; whoever answers may remember what was
asked before.
-/

namespace ExplicitControl

/-- Decides at each node whether to pause before it, and what to remember. -/
abbrev PauseRule (σ : Type) := σ → Tree → NodeId → Bool × σ

def PauseRule.never : PauseRule Unit := fun _ _ _ => (false, ())

def PauseRule.ofTest (test : Tree → NodeId → Bool) : PauseRule Unit := fun _ t id => (test t id, ())

/-- Offsets in a source file at which statements shall pause, as an editor marks them. -/
structure SpanBreakpoints where
  offsets : List UInt32
deriving Inhabited

namespace SpanBreakpoints

def empty : SpanBreakpoints := ⟨[]⟩

def isEmpty (b : SpanBreakpoints) : Bool :=
  b.offsets.isEmpty

def insert (b : SpanBreakpoints) (offset : UInt32) : Bool × SpanBreakpoints :=
  if b.offsets.contains offset then (false, b) else (true, ⟨offset :: b.offsets⟩)

/-- Take a mark away; also answers whether there was one. -/
def erase (b : SpanBreakpoints) (offset : UInt32) : Bool × SpanBreakpoints :=
  (b.offsets.contains offset, ⟨b.offsets.erase offset⟩)

def ofList (offsets : List UInt32) : SpanBreakpoints :=
  offsets.foldl (fun b offset => (b.insert offset).2) empty

def marks (b : SpanBreakpoints) (t : Tree) (id : NodeId) : Bool :=
  match t.node? id with
  | some node =>
    node.kind.isStatement && !node.kind.isProgram && b.offsets.contains node.span.start
  | none => false

def rule (b : SpanBreakpoints) : PauseRule Unit :=
  .ofTest b.marks

end SpanBreakpoints

end ExplicitControl
