import ExplicitControl.Text.Quoted
import ExplicitControl.Value

/-!
Variables. A frame holds the variables of one scope and knows the environment around it; a name means the
variable of the nearest frame that declares it. A declared variable has no value until its declaration is
executed, and cannot be used before. Frames are kept in the order of their creation, so the frames around a
frame are older than it, and the walk outward ends.
-/

namespace ExplicitControl

inductive Mutability where
  /-- As variables declared by `let` and parameters. -/
  | assignable
  /-- As constants, declared functions, and what every program finds. -/
  | fixed
deriving DecidableEq, Inhabited

def DeclKind.mutability (kind : DeclKind) : Mutability :=
  if kind.isConst then .fixed else .assignable

inductive ScopeError where
  | redeclaration
  | uninitialized
  | undefined
  | constant
deriving DecidableEq

structure Slot where
  value : Option Value
  mutability : Mutability
deriving Inhabited

structure Frame where
  /-- What made the frame, for inspection. -/
  name : String
  head : List (Name × Slot)
  tail : Option Env
  /-- The call that made the frame, if a call did. -/
  callSite : Option NodeId
  /-- What `this` means, if the frame belongs to a method call. -/
  receiver : Option Value
deriving Inhabited

namespace Frame

def ofName (name : String) (tail : Option Env) : Frame :=
  ⟨name, [], tail, none, none⟩

def slot? (f : Frame) (name : Name) : Option Slot :=
  f.head.lookup name

def insert (f : Frame) (name : Name) (slot : Slot) : Frame :=
  { f with head := (name, slot) :: f.head }

def modifySlot (f : Frame) (name : Name) (g : Slot → Slot) : Frame :=
  { f with head := f.head.map fun entry => if entry.1 = name then (entry.1, g entry.2) else entry }

/-- A frame around the same scope with copies of some variables, those of the names that this frame
declares. -/
def copy (f : Frame) (names : List Name) : Frame :=
  { ofName f.name f.tail with
    head := names.filterMap fun name => (f.slot? name).map fun slot => (name, slot) }

end Frame

structure Scopes where
  frames : Array Frame
deriving Inhabited

namespace Scopes

def empty : Scopes := ⟨#[]⟩

def frame? (s : Scopes) (env : Env) : Option Frame :=
  s.frames[env.frame]?

/-- Add a frame, to be shown by the number `id`. -/
def alloc (s : Scopes) (id : UInt32) (f : Frame) : Env × Scopes :=
  (⟨id, s.frames.size⟩, ⟨s.frames.push f⟩)

def root (s : Scopes) (id : UInt32) (name : String) : Env × Scopes :=
  s.alloc id (.ofName name none)

def child (s : Scopes) (env : Env) (id : UInt32) (name : String) : Env × Scopes :=
  s.alloc id (.ofName name (some env))

def call (s : Scopes) (env : Env) (id : UInt32) (name : String) (site : NodeId)
    (receiver : Option Value) : Env × Scopes :=
  s.alloc id { Frame.ofName name (some env) with callSite := some site, receiver }

/-- A sibling of a frame with copies of some of its variables. -/
def copyBindings (s : Scopes) (env : Env) (id : UInt32) (names : List Name) : Env × Scopes :=
  s.alloc id (((s.frame? env).getD default).copy names)

def name (s : Scopes) (env : Env) : String :=
  ((s.frame? env).map Frame.name).getD ""

def tail? (s : Scopes) (env : Env) : Option Env :=
  (s.frame? env).bind Frame.tail

def callSite? (s : Scopes) (env : Env) : Option NodeId :=
  (s.frame? env).bind Frame.callSite

def inspect (s : Scopes) (env : Env) : String :=
  "Env(" ++ toString env.id.toNat ++ ", " ++ Text.quote (s.name env) ++ ")"

def chainUpTo (s : Scopes) (fuel : Nat) (env : Env) : List Env :=
  match fuel with
  | 0 => []
  | fuel + 1 =>
    match s.tail? env with
    | some outer => env :: chainUpTo s fuel outer
    | none => [env]

/-- The frames from `env` outward, nearest first. No more than those older than it can come after it. -/
def chain (s : Scopes) (env : Env) : List Env :=
  s.chainUpTo (env.frame + 1) env

def depth (s : Scopes) (env : Env) : Nat :=
  (s.chain env).length

def findUpTo (s : Scopes) (p : Frame → Bool) (fuel : Nat) (frame : Nat) : Option Nat :=
  match fuel with
  | 0 => none
  | fuel + 1 =>
    match s.frames[frame]? with
    | none => none
    | some f =>
      if p f then some frame
      else
        match f.tail with
        | some outer => findUpTo s p fuel outer.frame
        | none => none

def find? (s : Scopes) (env : Env) (p : Frame → Bool) : Option Nat :=
  s.findUpTo p (env.frame + 1) env.frame

def owner? (s : Scopes) (env : Env) (name : Name) : Option Nat :=
  s.find? env fun f => (f.slot? name).isSome

def slot? (s : Scopes) (env : Env) (name : Name) : Option Slot := do
  let frame ← s.owner? env name
  (← s.frames[frame]?).slot? name

def receiver? (s : Scopes) (env : Env) : Option Value := do
  let frame ← s.find? env fun f => f.receiver.isSome
  (← s.frames[frame]?).receiver

def lookup (s : Scopes) (env : Env) (name : Name) : Except ScopeError Value :=
  match s.slot? env name with
  | none => .error .undefined
  | some slot =>
    match slot.value with
    | some v => .ok v
    | none => .error .uninitialized

def modifySlot (s : Scopes) (frame : Nat) (name : Name) (g : Slot → Slot) : Scopes :=
  ⟨s.frames.modify frame fun f => f.modifySlot name g⟩

def insert (s : Scopes) (frame : Nat) (name : Name) (slot : Slot) : Scopes :=
  ⟨s.frames.modify frame fun f => f.insert name slot⟩

def declares (s : Scopes) (env : Env) (name : Name) : Bool :=
  (s.frame? env).any fun f => (f.slot? name).isSome

end Scopes

/-- An operation on variables; one that fails leaves them as they were. -/
abbrev ScopeM := EStateM ScopeError Scopes

namespace Scopes

def addSlot (env : Env) (name : Name) (slot : Slot) : ScopeM Unit := fun s =>
  if s.declares env name then .error .redeclaration s
  else .ok () (s.insert env.frame name slot)

def declare (env : Env) (name : Name) (mutability : Mutability) : ScopeM Unit :=
  addSlot env name ⟨none, mutability⟩

def define (env : Env) (name : Name) (v : Value) (mutability : Mutability) : ScopeM Unit :=
  addSlot env name ⟨some v, mutability⟩

/-- Give the variable of a name its value, as its declaration does; constants are no exception. -/
def fill (env : Env) (name : Name) (v : Value) : ScopeM Unit := fun s =>
  match s.owner? env name with
  | none => .error .undefined s
  | some frame => .ok () (s.modifySlot frame name fun slot => { slot with value := some v })

def assign (env : Env) (name : Name) (v : Value) : ScopeM Unit := fun s =>
  match s.owner? env name, s.slot? env name with
  | some frame, some slot =>
    if slot.value.isNone then .error .uninitialized s
    else if slot.mutability = .fixed then .error .constant s
    else .ok () (s.modifySlot frame name fun slot => { slot with value := some v })
  | _, _ => .error .undefined s

end Scopes

end ExplicitControl
