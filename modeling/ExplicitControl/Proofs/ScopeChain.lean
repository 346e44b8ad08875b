import ExplicitControl.Proofs.SharedNames
import ExplicitControl.Proofs.StaticScope

/-!
# Frames as chains of scopes

Frames are shared: a closure, a block and a loop may all stand in one frame, and what is written through one of them is
seen through the others.  A chain of scopes, taken by itself, is no more than a list of partial functions from names to
variables.  The frames around a frame are older than it, so from each frame outward there is such a list, and every
operation on names does to the frames what its counterpart does to the list: it acts on the nearest scope that
declares the name.  All other variables of all frames stay as they are, so the lists of all other frames are known
too.
-/

namespace ExplicitControl

/-! ## 1. Chains by themselves -/

/-- A chain of scopes, nearest first: what each of them has under a name. -/
abbrev ScopeChain := List (Name → Option Slot)

namespace ScopeChain

/-- A scope with one variable more, or with another one in its place. -/
def put (scope : Name → Option Slot) (name : Name) (slot : Slot) : Name → Option Slot :=
  fun name' => if name' = name then some slot else scope name'

def find (name : Name) : ScopeChain → Option Slot
  | [] => none
  | scope :: outer =>
    match scope name with
    | some slot => some slot
    | none => find name outer

def replace (name : Name) (slot : Slot) : ScopeChain → ScopeChain
  | [] => []
  | scope :: outer => if (scope name).isSome then put scope name slot :: outer else scope :: replace name slot outer

def lookup (c : ScopeChain) (name : Name) : Except ScopeError Value :=
  match c.find name with
  | none => .error .undefined
  | some ⟨none, _⟩ => .error .uninitialized
  | some ⟨some v, _⟩ => .ok v

def fill (c : ScopeChain) (name : Name) (v : Value) : Except ScopeError ScopeChain :=
  match c.find name with
  | none => .error .undefined
  | some slot => .ok (c.replace name { slot with value := some v })

/-- Give the variable of a name another value, if it has one and is no constant. -/
def assign (c : ScopeChain) (name : Name) (v : Value) : Except ScopeError ScopeChain :=
  match c.find name with
  | none => .error .undefined
  | some ⟨none, _⟩ => .error .uninitialized
  | some ⟨some _, .fixed⟩ => .error .constant
  | some ⟨some _, .assignable⟩ => .ok (c.replace name ⟨some v, .assignable⟩)

def enter (c : ScopeChain) : ScopeChain :=
  (fun _ => none) :: c

/-- Add a variable to the nearest scope; a chain without scopes is never asked to. -/
def add (c : ScopeChain) (name : Name) (slot : Slot) : Except ScopeError ScopeChain :=
  match c with
  | [] => .error .undefined
  | scope :: outer => if (scope name).isSome then .error .redeclaration else .ok (put scope name slot :: outer)

end ScopeChain

/-! ## 2. Graphs of frames -/

inductive ScopeOp where
  | root (id : UInt32) (label : String)
  | child (env : Env) (id : UInt32) (label : String)
  | call (env : Env) (id : UInt32) (label : String) (site : NodeId) (receiver : Option Value)
  | copyBindings (env : Env) (id : UInt32) (names : List Name)
  | declare (env : Env) (name : Name) (mutability : Mutability)
  | define (env : Env) (name : Name) (v : Value) (mutability : Mutability)
  | fill (env : Env) (name : Name) (v : Value)
  | assign (env : Env) (name : Name) (v : Value)
  | lookup (env : Env) (name : Name)

def Scopes.after (s : Scopes) (op : ScopeM Unit) : Scopes :=
  match op s with
  | .ok _ s' | .error _ s' => s'

namespace ScopeOp

def env? : ScopeOp → Option Env
  | root _ _ => none
  | child env _ _ | call env _ _ _ _ | copyBindings env _ _ | declare env _ _ | define env _ _ _ | fill env _ _
  | assign env _ _ | lookup env _ => some env

def perform (s : Scopes) : ScopeOp → Scopes
  | root id label => (s.root id label).2
  | child env id label => (s.child env id label).2
  | call env id label site receiver => (s.call env id label site receiver).2
  | copyBindings env id names => (s.copyBindings env id names).2
  | declare env name mutability => s.after (Scopes.declare env name mutability)
  | define env name v mutability => s.after (Scopes.define env name v mutability)
  | fill env name v => s.after (Scopes.fill env name v)
  | assign env name v => s.after (Scopes.assign env name v)
  | lookup _ _ => s

end ScopeOp

namespace Scopes

/-- The chain of scopes that an environment stands for. -/
def view (s : Scopes) (env : Env) : ScopeChain :=
  (s.chain env).map fun e => s.own? e.frame

/-- Whatever operations are carried out from `s` on, each on an environment whose frame has been made, they lead to
`s'`. -/
inductive Leads (s : Scopes) : Scopes → Prop where
  | refl : Leads s s
  | step {s' : Scopes} (h : Leads s s') (op : ScopeOp) (hop : ∀ env ∈ op.env?, env.frame < s'.frames.size) :
    Leads s (op.perform s')

/-- The frames around a frame are older than it. -/
def Aged (s : Scopes) : Prop :=
  ∀ (frame : Nat) (outer : Env), s.frames[frame]?.map Frame.tail = some (some outer) → outer.frame < frame

structure Keeps (s s' : Scopes) : Prop where
  size : s.frames.size ≤ s'.frames.size
  tail : ∀ frame < s.frames.size, s'.frames[frame]?.map Frame.tail = s.frames[frame]?.map Frame.tail

/-- The one variable of that frame and name is `slot` now.  All others are as they were, and so are the frames. -/
structure Writes (s s' : Scopes) (frame : Nat) (name : Name) (slot : Slot) : Prop where
  own? : ∀ (frame' : Nat) (name' : Name), s'.own? frame' name' =
    if frame' = frame ∧ name' = name then some slot else s.own? frame' name'
  tail : ∀ frame' : Nat, s'.frames[frame']?.map Frame.tail = s.frames[frame']?.map Frame.tail
  size : s'.frames.size = s.frames.size

variable {s s' s'' : Scopes} {env outer : Env} {frame : Nat} {name : Name} {slot : Slot}

/-! ## 3. Walking outward -/

theorem tail?_eq_some : s.tail? env = some outer ↔ s.frames[env.frame]?.map Frame.tail = some (some outer) := by
  unfold tail? frame?
  cases s.frames[env.frame]? with
  | none => exact ⟨nofun, nofun⟩
  | some f => exact ⟨fun h => congrArg some h, fun h => Option.some.inj h⟩

theorem Aged.tail? (h : s.Aged) (htail : s.tail? env = some outer) : outer.frame < env.frame :=
  h _ _ (tail?_eq_some.mp htail)

/-- What holds of an environment if it holds of the one around it holds of all. -/
theorem Aged.induct (h : s.Aged) {P : Env → Prop} (step : ∀ env, (∀ outer, s.tail? env = some outer → P outer) → P env)
    (env : Env) : P env := by
  induction hframe : env.frame using Nat.strongRecOn generalizing env with
  | ind k ih => exact step env fun outer htail => ih outer.frame (hframe ▸ h.tail? htail) outer rfl

theorem chainUpTo_eq (h : s.Aged) {fuel fuel' : Nat} (hfuel : env.frame < fuel) (hfuel' : env.frame < fuel') :
    s.chainUpTo fuel env = s.chainUpTo fuel' env := by
  induction fuel generalizing fuel' env with
  | zero => exact absurd hfuel (Nat.not_lt_zero _)
  | succ fuel ih =>
    obtain _ | fuel' := fuel'
    · exact absurd hfuel' (Nat.not_lt_zero _)
    unfold chainUpTo
    cases htail : s.tail? env with
    | none => rfl
    | some outer =>
      have hlt := h.tail? htail
      dsimp only
      rw [ih (Nat.lt_of_lt_of_le hlt (Nat.le_of_lt_succ hfuel)) (Nat.lt_of_lt_of_le hlt (Nat.le_of_lt_succ hfuel'))]

/-- The chain from a frame outward is the frame and the chain around it. -/
theorem chain_eq (h : s.Aged) (env : Env) : s.chain env = env :: ((s.tail? env).map s.chain).getD [] := by
  unfold chain
  rw [chainUpTo]
  cases htail : s.tail? env with
  | none => rfl
  | some outer =>
    dsimp only
    rw [chainUpTo_eq h (h.tail? htail) (Nat.lt_succ_self _)]
    rfl

theorem view_eq (h : s.Aged) (env : Env) : s.view env = s.own? env.frame :: ((s.tail? env).map s.view).getD [] := by
  unfold view
  rw [chain_eq h, List.map_cons]
  cases s.tail? env <;> rfl

theorem findUpTo_eq (h : s.Aged) {p : Frame → Bool} {fuel fuel' : Nat} (hfuel : frame < fuel) (hfuel' : frame < fuel') :
    s.findUpTo p fuel frame = s.findUpTo p fuel' frame := by
  induction fuel generalizing fuel' frame with
  | zero => exact absurd hfuel (Nat.not_lt_zero _)
  | succ fuel ih =>
    obtain _ | fuel' := fuel'
    · exact absurd hfuel' (Nat.not_lt_zero _)
    unfold findUpTo
    cases hf : s.frames[frame]? with
    | none => rfl
    | some f =>
      dsimp only
      cases htail : f.tail with
      | none => rfl
      | some outer =>
        have hlt : outer.frame < frame := h frame outer (by rw [hf, Option.map_some, htail])
        dsimp only
        rw [ih (Nat.lt_of_lt_of_le hlt (Nat.le_of_lt_succ hfuel)) (Nat.lt_of_lt_of_le hlt (Nat.le_of_lt_succ hfuel'))]

/-- A name is looked for in a frame, and then in those around it. -/
theorem owner?_eq (h : s.Aged) (env : Env) (name : Name) : s.owner? env name =
    if (s.own? env.frame name).isSome then some env.frame else (s.tail? env).bind fun outer => s.owner? outer name := by
  unfold owner? find?
  cases hf : s.frames[env.frame]? with
  | none =>
    have hown : s.own? env.frame name = none := by rw [Scopes.own?, hf]; rfl
    have htail : s.tail? env = none := by rw [tail?, frame?, hf]; rfl
    rw [findUpTo, hf, hown, htail]
    rfl
  | some f =>
    have htail : s.tail? env = f.tail := by rw [tail?, frame?, hf]; rfl
    rw [findUpTo_succ hf, htail]
    cases hout : f.tail with
    | none => rfl
    | some outer =>
      have hlt : outer.frame < env.frame := h.tail? (htail.trans hout)
      rw [Option.bind_some, Option.bind_some, findUpTo_eq h hlt (Nat.lt_succ_self outer.frame)]

theorem owner?_le (h : s.Aged) (howner : s.owner? env name = some frame) : frame ≤ env.frame := by
  induction env using h.induct with
  | step env ih =>
    rw [owner?_eq h] at howner
    split at howner
    · cases howner
      exact Nat.le_refl _
    · obtain ⟨outer, htail, howner⟩ := Option.bind_eq_some_iff.mp howner
      exact Nat.le_of_lt (Nat.lt_of_le_of_lt (ih outer htail howner) (h.tail? htail))

/-- The name means the variable of the nearest frame of the chain that declares it. -/
theorem owner?_eq_find? (h : s.Aged) (env : Env) (name : Name) :
    s.owner? env name = ((s.chain env).map Env.frame).find? fun frame => (s.own? frame name).isSome := by
  induction env using h.induct with
  | step env ih =>
    rw [owner?_eq h, chain_eq h, List.map_cons, List.find?_cons]
    cases hown : s.own? env.frame name with
    | some slot => rfl
    | none =>
      cases htail : s.tail? env with
      | none => rfl
      | some outer => exact ih outer htail

/-- The variable that a name means is the one that it means in the chain. -/
theorem slot?_eq_find (h : s.Aged) (env : Env) (name : Name) : s.slot? env name = (s.view env).find name := by
  induction env using h.induct with
  | step env ih =>
    rw [view_eq h, ScopeChain.find]
    have howner := owner?_eq h env name
    cases hown : s.own? env.frame name with
    | some slot =>
      rw [hown, Option.isSome_some, if_pos rfl] at howner
      rw [slot?_eq_own? howner, hown]
    | none =>
      rw [hown, Option.isSome_none, if_neg Bool.false_ne_true] at howner
      have hslot : s.slot? env name = ((s.tail? env).bind fun outer => s.slot? outer name) := by
        unfold slot?
        rw [howner]
        cases s.tail? env <;> rfl
      rw [hslot]
      cases htail : s.tail? env with
      | none => rfl
      | some outer => exact ih outer htail

theorem slot?_eq_bind (s : Scopes) (env : Env) (name : Name) :
    s.slot? env name = (s.owner? env name).bind fun frame => s.own? frame name := rfl

theorem lookup_eq (h : s.Aged) (env : Env) (name : Name) : s.lookup env name = (s.view env).lookup name := by
  unfold lookup ScopeChain.lookup
  rw [slot?_eq_find h]
  obtain _ | ⟨_ | v, mutability⟩ := (s.view env).find name <;> rfl

/-! ## 4. What a write does -/

theorem tail?_eq_join (s : Scopes) (env : Env) : s.tail? env = (s.frames[env.frame]?.map Frame.tail).join := by
  unfold tail? frame?
  cases s.frames[env.frame]? <;> rfl

namespace Writes

theorem aged (h : s.Writes s' frame name slot) (hs : s.Aged) : s'.Aged :=
  fun i outer htail => hs i outer ((h.tail i).symm.trans htail)

theorem tail? (h : s.Writes s' frame name slot) (env : Env) : s'.tail? env = s.tail? env := by
  rw [tail?_eq_join, tail?_eq_join, h.tail]

theorem chain (h : s.Writes s' frame name slot) (env : Env) : s'.chain env = s.chain env := by
  suffices hupTo : ∀ fuel env, s'.chainUpTo fuel env = s.chainUpTo fuel env from hupTo _ env
  intro fuel
  induction fuel with
  | zero => exact fun _ => rfl
  | succ fuel ih =>
    intro env
    rw [chainUpTo, chainUpTo, h.tail?]
    cases s.tail? env with
    | none => rfl
    | some outer => exact congrArg (env :: ·) (ih outer)

/-- Frames that are older than the one written to have the same chains. -/
theorem view_of_lt (h : s.Writes s' frame name slot) (hs : s.Aged) {env : Env} (hlt : env.frame < frame) :
    s'.view env = s.view env := by
  induction env using hs.induct with
  | step env ih =>
    rw [view_eq (h.aged hs), view_eq hs, h.tail?]
    have hhere : s'.own? env.frame = s.own? env.frame := by
      funext name'
      rw [h.own?, if_neg fun heq => Nat.ne_of_lt hlt heq.1]
    rw [hhere]
    cases htail : s.tail? env with
    | none => rfl
    | some outer =>
      exact congrArg (s.own? env.frame :: ·) (ih outer htail (Nat.lt_trans (hs.tail? htail) hlt))

/-- A variable in the frame itself is one in the nearest scope. -/
theorem view_here (h : s.Writes s' env.frame name slot) (hs : s.Aged) :
    s'.view env = ScopeChain.put (s.own? env.frame) name slot :: ((s.tail? env).map s.view).getD [] := by
  rw [view_eq (h.aged hs), h.tail?]
  have hhere : s'.own? env.frame = ScopeChain.put (s.own? env.frame) name slot := by
    funext name'
    rw [h.own?, ScopeChain.put]
    by_cases hname : name' = name
    · rw [if_pos ⟨rfl, hname⟩, if_pos hname]
    · rw [if_neg fun heq => hname heq.2, if_neg hname]
  rw [hhere]
  cases htail : s.tail? env with
  | none => rfl
  | some outer =>
    exact congrArg (ScopeChain.put (s.own? env.frame) name slot :: ·) (h.view_of_lt hs (hs.tail? htail))

/-- A variable in the frame that a name leads to is the one that the name means in the chain. -/
theorem view_replace (h : s.Writes s' frame name slot) (hs : s.Aged) {env : Env}
    (howner : s.owner? env name = some frame) : s'.view env = (s.view env).replace name slot := by
  induction env using hs.induct with
  | step env ih =>
    rw [owner?_eq hs] at howner
    rw [view_eq hs, ScopeChain.replace]
    split at howner
    next hown =>
      cases howner
      rw [if_pos hown]
      exact h.view_here hs
    next hown =>
      obtain ⟨outer, htail, howner⟩ := Option.bind_eq_some_iff.mp howner
      have hlt : frame < env.frame := Nat.lt_of_le_of_lt (owner?_le hs howner) (hs.tail? htail)
      have hhere : s'.own? env.frame = s.own? env.frame := by
        funext name'
        rw [h.own?, if_neg fun heq => Nat.ne_of_gt hlt heq.1]
      rw [if_neg hown, view_eq (h.aged hs), h.tail?, hhere, htail]
      exact congrArg (s.own? env.frame :: ·) (ih outer htail howner)

section

variable {old : Slot}

/-- A variable with another value is where it was. -/
theorem owner? (h : s.Writes s' frame name slot) (hs : s.Aged) (hold : s.own? frame name = some old) (env : Env)
    (name' : Name) : s'.owner? env name' = s.owner? env name' := by
  rw [owner?_eq_find? (h.aged hs), owner?_eq_find? hs, h.chain]
  congr 1
  funext i
  rw [h.own?]
  split
  next heq =>
    obtain ⟨rfl, rfl⟩ := heq
    rw [hold]
    rfl
  next => rfl

/-- The variable is seen from wherever its name leads to its frame, and nothing else is seen anew. -/
theorem lookup (h : s.Writes s' frame name slot) (hs : s.Aged) (hold : s.own? frame name = some old) {v : Value}
    (hv : slot.value = some v) (env : Env) (name' : Name) :
    s'.lookup env name' = if name' = name ∧ s.owner? env name = some frame then .ok v else s.lookup env name' := by
  unfold Scopes.lookup
  rw [slot?_eq_bind, slot?_eq_bind, h.owner? hs hold]
  cases howner : s.owner? env name' with
  | none =>
    rw [if_neg]
    · rfl
    · rintro ⟨rfl, hframe⟩
      cases howner.symm.trans hframe
  | some found =>
    rw [Option.bind_some, Option.bind_some, h.own?]
    by_cases heq : found = frame ∧ name' = name
    · obtain ⟨rfl, rfl⟩ := heq
      rw [if_pos ⟨rfl, rfl⟩, if_pos ⟨rfl, howner⟩]
      dsimp only
      rw [hv]
    · rw [if_neg heq, if_neg]
      rintro ⟨rfl, hframe⟩
      exact heq ⟨Option.some.inj (howner.symm.trans hframe), rfl⟩

end

end Writes

theorem writes_modifySlot (hold : s.own? frame name = some slot) (g : Slot → Slot) :
    s.Writes (s.modifySlot frame name g) frame name (g slot) where
  own? := by
    intro frame' name'
    rw [own?_modifySlot]
    split
    next heq =>
      obtain ⟨rfl, rfl⟩ := heq
      rw [hold]
      rfl
    next => rfl
  tail := tail_modifySlot s frame name g
  size := size_modifySlot s frame name g

theorem writes_value (hold : s.own? frame name = some slot) (v : Value) :
    s.Writes (s.modifySlot frame name fun slot => { slot with value := some v }) frame name
      { slot with value := some v } :=
  writes_modifySlot hold _

theorem writes_insert (hlt : frame < s.frames.size) (name : Name) (slot : Slot) :
    s.Writes (s.insert frame name slot) frame name slot where
  own? := by
    intro frame' name'
    unfold Scopes.own? insert
    dsimp only
    rw [Array.getElem?_modify]
    by_cases hframe : frame = frame'
    · subst hframe
      rw [if_pos rfl, Array.getElem?_eq_getElem hlt]
      simp [Frame.slot?_insert]
    · rw [if_neg hframe, if_neg fun heq => hframe heq.1.symm]
  tail := by
    intro frame'
    unfold insert
    dsimp only
    rw [Array.getElem?_modify]
    split
    · rw [Option.map_map]
      rfl
    · rfl
  size := Array.size_modify

/-! ## 5. Operations on variables -/

/-- The operation ends as its counterpart on the chain does, and if it fails, it leaves the frames as they were. -/
def Agrees (s : Scopes) (env : Env) (op : ScopeM Unit) (model : Except ScopeError ScopeChain) : Prop :=
  match op s with
  | .ok _ s' => model = .ok (s'.view env)
  | .error e s' => model = .error e ∧ s' = s

/-- Where the operation succeeds, it gives a value to the one variable that the name means.  The value is seen through
every handle of its frame, and from wherever else the name leads there. -/
def Overwrites (s : Scopes) (env : Env) (name : Name) (v : Value) (op : ScopeM Unit) : Prop :=
  ∀ s', op s = .ok () s' → ∃ frame slot, s.owner? env name = some frame ∧ s.own? frame name = some slot ∧
    s.Writes s' frame name { slot with value := some v } ∧
    (∀ env', env'.frame = frame → s'.lookup env' name = .ok v) ∧
    ∀ env' name', s'.lookup env' name' =
      if name' = name ∧ s.owner? env' name = some frame then .ok v else s.lookup env' name'

/-- The operation adds a variable to the environment's own frame, unless there is one of that name. -/
structure Introduces (s : Scopes) (env : Env) (name : Name) (slot : Slot) (op : ScopeM Unit) : Prop where
  agrees : s.Agrees env op ((s.view env).add name slot)
  written : ∀ s', op s = .ok () s' → s.Writes s' env.frame name slot
  fails : ∀ e s', op s = .error e s' ↔ e = .redeclaration ∧ s' = s ∧ (s.own? env.frame name).isSome = true

/-- Why a name cannot be assigned to.  That its variable has no value comes before that it is a constant. -/
inductive Refuses (s : Scopes) (env : Env) (name : Name) : ScopeError → Prop where
  | undefined (howner : s.owner? env name = none) : Refuses s env name .undefined
  | uninitialized {frame : Nat} {mutability : Mutability} (howner : s.owner? env name = some frame)
      (hslot : s.own? frame name = some ⟨none, mutability⟩) : Refuses s env name .uninitialized
  | constant {frame : Nat} {old : Value} (howner : s.owner? env name = some frame)
      (hslot : s.own? frame name = some ⟨some old, .fixed⟩) : Refuses s env name .constant

theorem assign_undefined (howner : s.owner? env name = none) (v : Value) :
    assign env name v s = .error .undefined s := by
  unfold assign
  rw [howner]

theorem assign_owned (howner : s.owner? env name = some frame) (hslot : s.own? frame name = some slot) (v : Value) :
    assign env name v s =
      if slot.value.isNone then .error .uninitialized s
      else if slot.mutability = .fixed then .error .constant s
      else .ok () (s.modifySlot frame name fun slot => { slot with value := some v }) := by
  unfold assign
  rw [howner, slot?_eq_own? howner, hslot]

theorem fill_undefined (howner : s.owner? env name = none) (v : Value) : fill env name v s = .error .undefined s := by
  unfold fill
  rw [howner]

theorem fill_owned (howner : s.owner? env name = some frame) (v : Value) :
    fill env name v s = .ok () (s.modifySlot frame name fun slot => { slot with value := some v }) := by
  unfold fill
  rw [howner]

/-- A name means no variable, or one of the frame that it leads to. -/
theorem owner?_cases (s : Scopes) (env : Env) (name : Name) :
    s.owner? env name = none ∨ ∃ frame slot, s.owner? env name = some frame ∧ s.own? frame name = some slot := by
  cases howner : s.owner? env name with
  | none => exact .inl rfl
  | some frame =>
    obtain ⟨slot, hslot⟩ := exists_own?_of_owner? howner
    exact .inr ⟨frame, slot, rfl, hslot⟩

theorem find_view_none (h : s.Aged) (howner : s.owner? env name = none) : (s.view env).find name = none := by
  rw [← slot?_eq_find h, slot?_eq_bind, howner]
  rfl

theorem find_view_some (h : s.Aged) (howner : s.owner? env name = some frame) (hslot : s.own? frame name = some slot) :
    (s.view env).find name = some slot := by
  rw [← slot?_eq_find h, slot?_eq_own? howner, hslot]

theorem agrees_fill (h : s.Aged) (env : Env) (name : Name) (v : Value) :
    s.Agrees env (fill env name v) ((s.view env).fill name v) := by
  unfold Agrees ScopeChain.fill
  obtain howner | ⟨frame, slot, howner, hslot⟩ := s.owner?_cases env name
  · rw [fill_undefined howner, find_view_none h howner]
    exact ⟨rfl, rfl⟩
  · rw [fill_owned howner, find_view_some h howner hslot]
    exact congrArg Except.ok ((writes_value hslot v).view_replace h howner).symm

theorem agrees_assign (h : s.Aged) (env : Env) (name : Name) (v : Value) :
    s.Agrees env (assign env name v) ((s.view env).assign name v) := by
  unfold Agrees ScopeChain.assign
  obtain howner | ⟨frame, ⟨_ | old, _ | _⟩, howner, hslot⟩ := s.owner?_cases env name
  · rw [assign_undefined howner, find_view_none h howner]
    exact ⟨rfl, rfl⟩
  -- The variable may have a value or not, and may be a constant or not.
  all_goals rw [assign_owned howner hslot, find_view_some h howner hslot]
  · exact ⟨rfl, rfl⟩
  · exact ⟨rfl, rfl⟩
  · exact congrArg Except.ok ((writes_value hslot v).view_replace h howner).symm
  · exact ⟨rfl, rfl⟩

theorem overwrites_of_modifySlot (h : s.Aged) (howner : s.owner? env name = some frame)
    (hslot : s.own? frame name = some slot) (v : Value) {op : ScopeM Unit}
    (hop : ∀ s', op s = .ok () s' → s' = s.modifySlot frame name fun slot => { slot with value := some v }) :
    s.Overwrites env name v op := by
  intro s' hs'
  obtain rfl := hop s' hs'
  have hlookup := (writes_value hslot v).lookup h hslot rfl
  refine ⟨frame, slot, howner, hslot, writes_value hslot v, ?_, hlookup⟩
  rintro env' rfl
  exact (hlookup env' name).trans (if_pos ⟨rfl, owner?_of_own? hslot⟩)

theorem overwrites_fill (h : s.Aged) (env : Env) (name : Name) (v : Value) :
    s.Overwrites env name v (fill env name v) := by
  obtain howner | ⟨frame, slot, howner, hslot⟩ := s.owner?_cases env name
  · intro s' hs'
    rw [fill_undefined howner] at hs'
    cases hs'
  · refine overwrites_of_modifySlot h howner hslot v fun s' hs' => ?_
    rw [fill_owned howner] at hs'
    cases hs'
    rfl

theorem overwrites_assign (h : s.Aged) (env : Env) (name : Name) (v : Value) :
    s.Overwrites env name v (assign env name v) := by
  obtain howner | ⟨frame, slot, howner, hslot⟩ := s.owner?_cases env name
  · intro s' hs'
    rw [assign_undefined howner] at hs'
    cases hs'
  · refine overwrites_of_modifySlot h howner hslot v fun s' hs' => ?_
    rw [assign_owned howner hslot] at hs'
    split at hs'
    · cases hs'
    · split at hs'
      · cases hs'
      · cases hs'
        rfl

theorem assign_error_iff {v : Value} {e : ScopeError} :
    assign env name v s = .error e s' ↔ s' = s ∧ s.Refuses env name e := by
  constructor
  · intro herror
    obtain howner | ⟨frame, ⟨_ | old, _ | _⟩, howner, hslot⟩ := s.owner?_cases env name
    · rw [assign_undefined howner] at herror
      cases herror
      exact ⟨rfl, .undefined howner⟩
    all_goals
      rw [assign_owned howner hslot] at herror
      cases herror
    · exact ⟨rfl, .uninitialized howner hslot⟩
    · exact ⟨rfl, .uninitialized howner hslot⟩
    · exact ⟨rfl, .constant howner hslot⟩
  · rintro ⟨rfl, howner | ⟨howner, hslot⟩ | ⟨howner, hslot⟩⟩
    · exact assign_undefined howner v
    · exact assign_owned howner hslot v
    · exact assign_owned howner hslot v

theorem fill_error_iff {v : Value} {e : ScopeError} :
    fill env name v s = .error e s' ↔ e = .undefined ∧ s' = s ∧ s.owner? env name = none := by
  constructor
  · intro herror
    obtain howner | ⟨frame, slot, howner, -⟩ := s.owner?_cases env name
    · rw [fill_undefined howner] at herror
      cases herror
      exact ⟨rfl, rfl, howner⟩
    · rw [fill_owned howner] at herror
      cases herror
  · rintro ⟨rfl, rfl, howner⟩
    exact fill_undefined howner v

theorem declares_eq (s : Scopes) (env : Env) (name : Name) : s.declares env name = (s.own? env.frame name).isSome := by
  unfold declares frame? own?
  cases s.frames[env.frame]? <;> rfl

/-- Only a frame that has been made gets a variable. -/
theorem introduces_addSlot (h : s.Aged) (henv : env.frame < s.frames.size) (name : Name) (slot : Slot) :
    s.Introduces env name slot (addSlot env name slot) := by
  have hmodel : (s.view env).add name slot =
      if (s.own? env.frame name).isSome then .error .redeclaration
      else .ok (ScopeChain.put (s.own? env.frame) name slot :: ((s.tail? env).map s.view).getD []) := by
    rw [view_eq h, ScopeChain.add]
  have hop : addSlot env name slot s =
      if (s.own? env.frame name).isSome then .error .redeclaration s else .ok () (s.insert env.frame name slot) := by
    rw [addSlot, declares_eq]
  have hwrites := writes_insert henv name slot
  cases hown : (s.own? env.frame name).isSome with
  | true =>
    rw [hown, if_pos rfl] at hmodel hop
    refine ⟨?_, fun s' hs' => ?_, fun e s' => ?_⟩
    · unfold Agrees
      rw [hop, hmodel]
      exact ⟨rfl, rfl⟩
    · rw [hop] at hs'
      cases hs'
    · rw [hop, hown]
      constructor
      · rintro ⟨⟩
        exact ⟨rfl, rfl, rfl⟩
      · rintro ⟨rfl, rfl, -⟩
        rfl
  | false =>
    rw [hown, if_neg Bool.false_ne_true] at hmodel hop
    refine ⟨?_, fun s' hs' => ?_, fun e s' => ?_⟩
    · unfold Agrees
      rw [hop, hmodel]
      exact congrArg Except.ok (hwrites.view_here h).symm
    · rw [hop] at hs'
      cases hs'
      exact hwrites
    · rw [hop, hown]
      exact ⟨nofun, nofun⟩

/-! ## 6. What any operation does -/

theorem getElem?_push_of_lt (f : Frame) (h : frame < s.frames.size) : (s.frames.push f)[frame]? = s.frames[frame]? :=
  (Array.getElem?_push).trans (if_neg (Nat.ne_of_lt h))

theorem Aged.push (h : s.Aged) {f : Frame} (hf : ∀ outer ∈ f.tail, outer.frame < s.frames.size) :
    Aged ⟨s.frames.push f⟩ := by
  intro i outer htail
  dsimp only at htail
  rw [Array.getElem?_push] at htail
  split at htail
  next hi =>
    rw [hi]
    exact hf outer (Option.some.inj htail)
  next => exact h i outer htail

/-- An operation that agrees with its counterpart changes nothing where it fails. -/
theorem after_of_agrees {op : ScopeM Unit} {model : Except ScopeError ScopeChain} (h : s.Agrees env op model)
    {P : Scopes → Prop} (written : ∀ s', op s = .ok () s' → P s') : s.after op = s ∨ P (s.after op) := by
  unfold Agrees at h
  unfold after
  cases hop : op s with
  | ok _ s' => exact .inr (written s' hop)
  | error e s' =>
    rw [hop] at h
    exact .inl h.2

theorem after_introduces {op : ScopeM Unit} (h : s.Introduces env name slot op) :
    s.after op = s ∨ s.Writes (s.after op) env.frame name slot :=
  after_of_agrees h.agrees h.written

theorem after_overwrites {v : Value} {op : ScopeM Unit} {model : Except ScopeError ScopeChain}
    (h : s.Agrees env op model) (hover : s.Overwrites env name v op) :
    s.after op = s ∨ ∃ frame slot, s.owner? env name = some frame ∧ s.Writes (s.after op) frame name slot :=
  after_of_agrees (P := fun s' => ∃ frame slot, s.owner? env name = some frame ∧ s.Writes s' frame name slot) h
    fun s' hs' => by
      obtain ⟨frame, slot, howner, -, hwrites, -, -⟩ := hover s' hs'
      exact ⟨frame, _, howner, hwrites⟩

/-- An operation makes a frame, changes nothing, or writes to one variable. -/
theorem perform_cases (h : s.Aged) (op : ScopeOp) (hop : ∀ env ∈ op.env?, env.frame < s.frames.size) :
    (∃ f, op.perform s = ⟨s.frames.push f⟩ ∧ ∀ outer ∈ f.tail, outer.frame < s.frames.size) ∨
      op.perform s = s ∨
      ∃ env frame name slot, op.env? = some env ∧ (frame = env.frame ∨ s.owner? env name = some frame) ∧
        s.Writes (op.perform s) frame name slot := by
  cases op with
  | root id label => exact .inl ⟨_, rfl, fun outer houter => by cases houter⟩
  | child env id label => exact .inl ⟨_, rfl, fun outer houter => by cases houter; exact hop env rfl⟩
  | call env id label site receiver =>
    exact .inl ⟨_, rfl, fun outer houter => by cases houter; exact hop env rfl⟩
  | copyBindings env id names =>
    refine .inl ⟨_, rfl, fun outer houter => ?_⟩
    have hlt := hop env rfl
    obtain ⟨f, hf⟩ : ∃ f, s.frame? env = some f := ⟨_, Array.getElem?_eq_getElem hlt⟩
    have htail : s.tail? env = some outer := by
      rw [hf] at houter
      rw [tail?, hf]
      exact houter
    exact Nat.lt_trans (h.tail? htail) hlt
  | declare env name mutability =>
    refine .inr ((after_introduces (introduces_addSlot h (hop env rfl) name _)).imp_right fun hwrites => ?_)
    exact ⟨env, env.frame, name, _, rfl, .inl rfl, hwrites⟩
  | define env name v mutability =>
    refine .inr ((after_introduces (introduces_addSlot h (hop env rfl) name _)).imp_right fun hwrites => ?_)
    exact ⟨env, env.frame, name, _, rfl, .inl rfl, hwrites⟩
  | fill env name v =>
    refine .inr ((after_overwrites (agrees_fill h env name v) (overwrites_fill h env name v)).imp_right ?_)
    rintro ⟨frame, slot, howner, hwrites⟩
    exact ⟨env, frame, name, slot, rfl, .inr howner, hwrites⟩
  | assign env name v =>
    refine .inr ((after_overwrites (agrees_assign h env name v) (overwrites_assign h env name v)).imp_right ?_)
    rintro ⟨frame, slot, howner, hwrites⟩
    exact ⟨env, frame, name, slot, rfl, .inr howner, hwrites⟩
  | lookup env name => exact .inr (.inl rfl)

theorem aged_perform (h : s.Aged) (op : ScopeOp) (hop : ∀ env ∈ op.env?, env.frame < s.frames.size) :
    (op.perform s).Aged := by
  obtain ⟨f, heq, hf⟩ | heq | ⟨env, frame, name, slot, -, -, hwrites⟩ := perform_cases h op hop
  · rw [heq]
    exact h.push hf
  · rw [heq]
    exact h
  · exact hwrites.aged h

theorem keeps_perform (h : s.Aged) (op : ScopeOp) (hop : ∀ env ∈ op.env?, env.frame < s.frames.size) :
    s.Keeps (op.perform s) := by
  obtain ⟨f, heq, -⟩ | heq | ⟨env, frame, name, slot, -, -, hwrites⟩ := perform_cases h op hop
  · rw [heq]
    refine ⟨by rw [Array.size_push]; exact Nat.le_succ _, fun i hi => ?_⟩
    dsimp only
    rw [getElem?_push_of_lt f hi]
  · rw [heq]
    exact ⟨Nat.le_refl _, fun _ _ => rfl⟩
  · exact ⟨Nat.le_of_eq hwrites.size.symm, fun i _ => hwrites.tail i⟩

theorem Keeps.tail? (h : s.Keeps s') (hlt : env.frame < s.frames.size) : s'.tail? env = s.tail? env := by
  rw [tail?_eq_join, tail?_eq_join, h.tail _ hlt]

theorem Leads.aged (hs : s.Leads s') (h : s.Aged) : s'.Aged := by
  induction hs with
  | refl => exact h
  | step _ op hop ih => exact aged_perform ih op hop

theorem Leads.keeps (hs : s.Leads s') (h : s.Aged) : s.Keeps s' := by
  induction hs with
  | refl => exact ⟨Nat.le_refl _, fun _ _ => rfl⟩
  | step hs op hop ih =>
    have hone := keeps_perform (hs.aged h) op hop
    exact ⟨Nat.le_trans ih.size hone.size,
      fun i hi => (hone.tail i (Nat.lt_of_lt_of_le hi ih.size)).trans (ih.tail i hi)⟩

theorem aged_empty : Aged empty := by
  intro frame outer h
  cases h

/-! ## 7. Copies -/

/-- Two frames that stand inside of the same environment, the second of which is a copy of the first.  Neither is
around the other, so no name leads from one to the other, and no operation through one of them writes to the other.
A name that neither has leads both to one and the same variable. -/
structure Siblings (s : Scopes) (env copy : Env) : Prop where
  tail : s.tail? copy = s.tail? env
  apart : ∀ name, s.owner? copy name ≠ some env.frame ∧ s.owner? env name ≠ some copy.frame
  shared : ∀ name, s.own? copy.frame name = none → s.own? env.frame name = none →
    s.owner? copy name = s.owner? env name
  /-- Through any handle of the copy, no operation changes a variable of the original. -/
  ofCopy : ∀ (op : ScopeOp) (e : Env), op.env? = some e → e.frame = copy.frame →
    ∀ name, (op.perform s).own? env.frame name = s.own? env.frame name
  /-- Nor the other way round. -/
  ofOriginal : ∀ (op : ScopeOp) (e : Env), op.env? = some e → e.frame = env.frame →
    ∀ name, (op.perform s).own? copy.frame name = s.own? copy.frame name

/-- What a name means depends on the frame of a handle only. -/
theorem owner?_congr {e e' : Env} (h : e.frame = e'.frame) (name : Name) : s.owner? e name = s.owner? e' name := by
  unfold owner? find?
  rw [h]

/-- An operation leaves a frame alone to which neither its environment nor a name leads. -/
theorem own?_perform (h : s.Aged) {op : ScopeOp} {e : Env} (hop : op.env? = some e) (he : e.frame < s.frames.size)
    (hframe : frame < s.frames.size) (hne : frame ≠ e.frame) (hapart : ∀ name, s.owner? e name ≠ some frame)
    (name : Name) : (op.perform s).own? frame name = s.own? frame name := by
  have hadmissible : ∀ env ∈ op.env?, env.frame < s.frames.size := by
    rintro env henv
    cases hop.symm.trans henv
    exact he
  obtain ⟨f, heq, -⟩ | heq | ⟨env, written, name', slot, henv, hwritten, hwrites⟩ := perform_cases h op hadmissible
  · rw [heq, own?_push, if_neg (Nat.ne_of_lt hframe)]
  · rw [heq]
  · cases hop.symm.trans henv
    rw [hwrites.own?, if_neg]
    rintro ⟨rfl, -⟩
    obtain rfl | howner := hwritten
    · exact hne rfl
    · exact hapart name' howner

theorem siblings_of_tail (h : s.Aged) {copy : Env} (hlt : env.frame < copy.frame) (hcopy : copy.frame < s.frames.size)
    (htail : s.tail? copy = s.tail? env) : s.Siblings env copy := by
  have apart : ∀ name, s.owner? copy name ≠ some env.frame ∧ s.owner? env name ≠ some copy.frame := by
    refine fun name => ⟨fun howner => ?_, fun howner => ?_⟩
    · rw [owner?_eq h, htail] at howner
      split at howner
      · exact Nat.ne_of_gt hlt (Option.some.inj howner)
      · obtain ⟨outer, houter, howner⟩ := Option.bind_eq_some_iff.mp howner
        exact Nat.lt_irrefl _ (Nat.lt_of_le_of_lt (owner?_le h howner) (h.tail? houter))
    · exact Nat.lt_irrefl _ (Nat.lt_of_le_of_lt (owner?_le h howner) hlt)
  refine ⟨htail, apart, fun name hnone hnone' => ?_, fun op e hop he name => ?_, fun op e hop he name => ?_⟩
  · rw [owner?_eq h, owner?_eq h env, hnone, hnone', htail]
    rfl
  · refine own?_perform h hop (he ▸ hcopy) (Nat.lt_trans hlt hcopy) (he ▸ Nat.ne_of_lt hlt) (fun name' => ?_) name
    rw [owner?_congr he]
    exact (apart name').1
  · refine own?_perform h hop (he ▸ Nat.lt_trans hlt hcopy) hcopy (he ▸ Nat.ne_of_gt hlt) (fun name' => ?_) name
    rw [owner?_congr he]
    exact (apart name').2

/-- What comes of copying variables of a frame: the copy has them as they are now, and is the sibling of the original
in whatever frames are made of these. -/
structure Copies (s : Scopes) (env : Env) (names : List Name) (copy : Env) (s' : Scopes) : Prop where
  fresh : copy.frame = s.frames.size
  slots : ∀ name, s'.own? copy.frame name = if name ∈ names then s.own? env.frame name else none
  others : ∀ frame < s.frames.size, s'.frames[frame]? = s.frames[frame]?
  siblings : ∀ s'', s'.Leads s'' → s''.Siblings env copy

theorem copies_copyBindings (h : s.Aged) (henv : env.frame < s.frames.size) (id : UInt32) (names : List Name) :
    s.Copies env names (s.copyBindings env id names).1 (s.copyBindings env id names).2 := by
  obtain ⟨f, hf⟩ : ∃ f, s.frame? env = some f := ⟨_, Array.getElem?_eq_getElem henv⟩
  have hadmissible : ∀ e ∈ (ScopeOp.copyBindings env id names).env?, e.frame < s.frames.size := by
    rintro _ ⟨⟩
    exact henv
  have haged := aged_perform h (.copyBindings env id names) hadmissible
  refine ⟨rfl, fun name => ?_, fun i hi => ?_, fun s'' hs'' => ?_⟩
  · show own? ⟨s.frames.push _⟩ s.frames.size name = _
    rw [own?_push, if_pos rfl, Frame.slot?_copy_eq, hf]
    rw [own?, show s.frames[env.frame]? = some f from hf]
    rfl
  · exact getElem?_push_of_lt _ hi
  · have hkeeps := hs''.keeps haged
    have hsize : (s.copyBindings env id names).2.frames.size = s.frames.size + 1 := Array.size_push _
    have hnew : s.frames.size < (s.copyBindings env id names).2.frames.size := hsize ▸ Nat.lt_succ_self _
    -- The copy is inside of the same environment as the original, and both stay where they are.
    have hcopy : (s.copyBindings env id names).2.tail? (s.copyBindings env id names).1 = s.tail? env := by
      show (Scopes.mk (s.frames.push _)).tail? ⟨id, s.frames.size⟩ = s.tail? env
      rw [tail?, frame?, Array.getElem?_push_size, hf, tail?, hf]
      rfl
    have hold := (keeps_perform h (.copyBindings env id names) hadmissible).tail? henv
    refine siblings_of_tail (hs''.aged haged) henv (Nat.lt_of_lt_of_le hnew hkeeps.size) ?_
    exact ((hkeeps.tail? hnew).trans hcopy).trans ((hkeeps.tail? (Nat.lt_trans henv hnew)).trans hold).symm

/-! ## 8. New scopes -/

/-- What comes of making a frame: its handle is new and leads to it, and it is a new scope inside of those around the
environment that it is made in.  All other frames are as they were, and so are their chains. -/
structure Opens (s : Scopes) (id : UInt32) (f : Frame) (made : Env × Scopes) : Prop where
  fresh : made.1 = ⟨id, s.frames.size⟩
  frame : made.2.frame? made.1 = some f
  view : made.2.view made.1 = ScopeChain.enter ((f.tail.map s.view).getD [])
  others : ∀ frame < s.frames.size, made.2.frames[frame]? = s.frames[frame]?
  views : ∀ e : Env, e.frame < s.frames.size → made.2.view e = s.view e

theorem opens_alloc (h : s.Aged) (id : UInt32) {f : Frame} (hhead : f.head = [])
    (htail : ∀ outer ∈ f.tail, outer.frame < s.frames.size) : s.Opens id f (s.alloc id f) := by
  have haged : Aged ⟨s.frames.push f⟩ := h.push htail
  have hframe : frame? ⟨s.frames.push f⟩ ⟨id, s.frames.size⟩ = some f := Array.getElem?_push_size
  have hviews : ∀ e : Env, e.frame < s.frames.size → view ⟨s.frames.push f⟩ e = s.view e := fun e he => by
    induction e using h.induct with
    | step e ih =>
      have houter : tail? ⟨s.frames.push f⟩ e = s.tail? e := by
        rw [tail?, frame?, getElem?_push_of_lt f he, tail?, frame?]
      have hown : own? ⟨s.frames.push f⟩ e.frame = s.own? e.frame := by
        funext name
        rw [own?_push, if_neg (Nat.ne_of_lt he)]
      rw [view_eq haged, view_eq h, houter, hown]
      cases htail : s.tail? e with
      | none => rfl
      | some outer => exact congrArg (s.own? e.frame :: ·) (ih outer htail (Nat.lt_trans (h.tail? htail) he))
  refine ⟨rfl, hframe, ?_, fun frame hlt => getElem?_push_of_lt f hlt, hviews⟩
  have hown : own? ⟨s.frames.push f⟩ s.frames.size = fun _ => none := by
    funext name
    rw [own?_push, if_pos rfl, Frame.slot?, hhead]
    rfl
  have houter : tail? ⟨s.frames.push f⟩ ⟨id, s.frames.size⟩ = f.tail := by
    rw [tail?, hframe, Option.bind_some]
  show view ⟨s.frames.push f⟩ ⟨id, s.frames.size⟩ = _
  rw [view_eq haged, houter, hown]
  cases hf : f.tail with
  | none => rfl
  | some outer => exact congrArg ((fun _ => none) :: ·) (hviews outer (htail outer hf))

/-! ## 9. The laws of frames -/

/-- What the operations on an environment do, in the frames `s`. -/
structure Lawful (s : Scopes) (env : Env) : Prop where
  /-- The scopes of the chain are those of the frames from here outward. -/
  linked : s.view env = s.own? env.frame :: ((s.tail? env).map s.view).getD []
  /-- A name leads to the nearest frame that declares it. -/
  nearest : ∀ name, s.owner? env name = ((s.chain env).map Env.frame).find? fun frame => (s.own? frame name).isSome
  unbound : ∀ name, s.owner? env name = none ↔ ∀ e ∈ s.chain env, s.own? e.frame name = none
  /-- Reading, assigning and filling are what they are on the chain by itself. -/
  lookup : ∀ name, s.lookup env name = (s.view env).lookup name
  assign : ∀ name v, s.Agrees env (assign env name v) ((s.view env).assign name v)
  fill : ∀ name v, s.Agrees env (fill env name v) ((s.view env).fill name v)
  /-- One variable gets the value, that of the frame that the name leads to. -/
  assigned : ∀ name v, s.Overwrites env name v (Scopes.assign env name v)
  filled : ∀ name v, s.Overwrites env name v (Scopes.fill env name v)
  refused : ∀ name v e s', Scopes.assign env name v s = .error e s' ↔ s' = s ∧ s.Refuses env name e
  unfilled : ∀ name v e s', Scopes.fill env name v s = .error e s' ↔
    e = .undefined ∧ s' = s ∧ s.owner? env name = none
  /-- Declaring and defining concern the environment's own frame. -/
  declare : ∀ name mutability, s.Introduces env name ⟨none, mutability⟩ (declare env name mutability)
  define : ∀ name v mutability, s.Introduces env name ⟨some v, mutability⟩ (define env name v mutability)
  copies : ∀ id names, s.Copies env names (s.copyBindings env id names).1 (s.copyBindings env id names).2
  /-- A new frame has no variables; it is inside of nothing, or inside of the environment. -/
  root : ∀ id label, s.Opens id ⟨label, [], none, none, none⟩ (s.root id label)
  child : ∀ id label, s.Opens id ⟨label, [], some env, none, none⟩ (s.child env id label)
  call : ∀ id label site receiver,
    s.Opens id ⟨label, [], some env, some site, receiver⟩ (s.call env id label site receiver)

/-- **Frames are chains of scopes.**  Whatever operations have been carried out, each on an environment whose frame had
been made: of every environment, all operations on names do to the frames what they do to the chain of scopes that the
environment stands for. -/
theorem frames_are_chains {s : Scopes} (hs : empty.Leads s) {env : Env} (henv : env.frame < s.frames.size) :
    s.Lawful env := by
  have h := hs.aged aged_empty
  have inside : ∀ outer ∈ some env, outer.frame < s.frames.size := by
    rintro _ ⟨⟩
    exact henv
  exact {
    linked := view_eq h env
    nearest := owner?_eq_find? h env
    unbound := fun name => by
      rw [owner?_eq_find? h, List.find?_eq_none]
      simp
    lookup := lookup_eq h env
    assign := agrees_assign h env
    fill := agrees_fill h env
    assigned := overwrites_assign h env
    filled := overwrites_fill h env
    refused := fun name v e s' => assign_error_iff
    unfilled := fun name v e s' => fill_error_iff
    declare := fun name mutability => introduces_addSlot h henv name _
    define := fun name v mutability => introduces_addSlot h henv name _
    copies := copies_copyBindings h henv
    root := fun id label => opens_alloc h id rfl nofun
    child := fun id label => opens_alloc h id rfl inside
    call := fun id label site receiver => opens_alloc h id rfl inside }

/-- The frames of `let y = null; for (let x = true; ...) ...`, where the loop has its own frame. -/
def ofLoop : Scopes :=
  [ScopeOp.root 0 "global", .define ⟨0, 0⟩ ⟨2⟩ .null .assignable, .child ⟨0, 0⟩ 1 "for",
    .define ⟨1, 1⟩ ⟨1⟩ (.bool true) .assignable].foldl (fun s op => op.perform s) empty

theorem frames_are_chains_ofLoop : empty.Leads ofLoop ∧ ofLoop.Lawful ⟨1, 1⟩ := by
  have hglobal : empty.Leads _ := .step .refl (.root 0 "global") nofun
  have hdefined := hglobal.step (.define ⟨0, 0⟩ ⟨2⟩ .null .assignable) (by rintro _ ⟨⟩; decide)
  have hchild := hdefined.step (.child ⟨0, 0⟩ 1 "for") (by rintro _ ⟨⟩; decide)
  have hloop : empty.Leads ofLoop :=
    hchild.step (.define ⟨1, 1⟩ ⟨1⟩ (.bool true) .assignable) (by rintro _ ⟨⟩; decide)
  exact ⟨hloop, frames_are_chains hloop (by decide)⟩

end Scopes

end ExplicitControl
