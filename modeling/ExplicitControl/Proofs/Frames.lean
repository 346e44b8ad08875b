import ExplicitControl.Proofs.Exchanges
import ExplicitControl.Proofs.Turns
import Mathlib.Data.List.Nodup

/-!
# The frame and the items of a node

A step makes one frame at most.  Evaluating a node makes one if the node declares something itself: the frame
has the declared variables, none of them with a value, and is inside of the current environment.  A call makes
one that has the parameters with their values besides, inside of the environment of the function called.  Here
these frames are found out exactly, and with them the items that a node puts in front.
-/

namespace ExplicitControl

/-! ## 1. One frame more -/

/-- The variables that statements declare, as a frame holds them before any has its value. -/
def declaredSlots (ds : List (NodeId × Name × DeclKind)) : List (Name × Slot) :=
  ds.map fun d => (d.2.1, ⟨none, d.2.2.mutability⟩)

def parameterSlots (params : List Name) (args : List Value) : List (Name × Slot) :=
  (params.zip args).map fun pair => (pair.1, ⟨some pair.2, .assignable⟩)

structure State.Makes (s : State) (f : Frame) (s' : State) : Prop where
  handle : s'.env = ⟨s.nextEnvId, s.scopes.frames.size⟩
  frames : s'.scopes.frames = s.scopes.frames.push f
  next : s'.nextEnvId = s.nextEnvId + 1

theorem State.Makes.env {s s' : State} {f : Frame} (h : s.Makes f s') : s'.env.frame = s.scopes.frames.size :=
  congrArg Env.frame h.handle

/-- Only the frames and the next number matter to what is made. -/
theorem State.Makes.congr {s s₁ s' : State} {f : Frame} (h : s₁.Makes f s') (hscopes : s₁.scopes = s.scopes)
    (hnext : s₁.nextEnvId = s.nextEnvId) : s.Makes f s' :=
  ⟨by rw [h.handle, hscopes, hnext], by rw [h.frames, hscopes], by rw [h.next, hnext]⟩

/-- A scope in which `ds` are declared has been entered, and items have been put in front. -/
structure State.Opens (ds : List (NodeId × Name × DeclKind)) (items : List Item) (s s' : State) : Prop where
  agenda : s'.agenda = items ++ s.agenda
  stash : s'.stash = s.stash
  calls : s'.calls = s.calls
  snapshots : s'.snapshots = s.snapshots
  names : (ds.map fun d => d.2.1).Nodup
  made : ∃ name, s.Makes ⟨name, (declaredSlots ds).reverse, some s.env, none, none⟩ s'

theorem modify_push_size {α : Type} (a : Array α) (x : α) (f : α → α) :
    (a.push x).modify a.size f = a.push (f x) := by
  refine Array.ext_getElem? fun i => ?_
  rw [Array.getElem?_modify, Array.getElem?_push, Array.getElem?_push]
  by_cases h : a.size = i
  · rw [if_pos h, if_pos h.symm, if_pos h.symm, Option.map_some]
  · rw [if_neg h, if_neg (Ne.symm h), if_neg (Ne.symm h)]

theorem Frame.slot?_eq_none {f : Frame} {name : Name} :
    f.slot? name = none ↔ name ∉ f.head.map Prod.fst := by
  rw [Frame.slot?, List.lookup_eq_none_iff, List.mem_map]
  constructor
  · rintro h ⟨entry, hentry, rfl⟩
    exact absurd (h entry hentry) (by simp)
  · intro h entry hentry
    simpa using fun heq => h ⟨entry, hentry, heq.symm⟩

def Tree.bodyDeclarations (t : Tree) : FunctionBody → List (NodeId × Name × DeclKind)
  | .expression _ => []
  | .block statements => t.declarations statements

def Tree.opened (t : Tree) : NodeKind → List (NodeId × Name × DeclKind)
  | .program body | .block body => t.declarations body
  | .forLoop init _ _ _ => t.headDeclarations init
  | _ => []

namespace Machine

variable {α β : Type} {p : Setting} {s s' : State}

/-- A variable is added to the frame that has been made last. -/
theorem ensures_addSlot {fs : Array Frame} {f : Frame} {env : Env} (hframes : s.scopes.frames = fs.push f)
    (henv : env.frame = fs.size) (node : NodeId) (name : Name) (slot : Slot) :
    Ensures (onName p node name (Scopes.addSlot env name slot)) s
      (fun _ s' => name ∉ f.head.map Prod.fst ∧ s' = { s with scopes := ⟨fs.push (f.insert name slot)⟩ })
      fun e _ => NotUnderflow e := by
  have hframe : s.scopes.frame? env = some f := by
    rw [Scopes.frame?, hframes, henv]
    exact Array.getElem?_push_size
  have hinsert : s.scopes.insert env.frame name slot = ⟨fs.push (f.insert name slot)⟩ := by
    unfold Scopes.insert
    rw [hframes, henv, modify_push_size]
  rw [ensures_onName]
  unfold Scopes.addSlot
  by_cases hdeclares : s.scopes.declares env name = true
  · rw [if_pos hdeclares]
    exact notUnderflow_of_regular rfl
  · rw [if_neg hdeclares, hinsert]
    refine ⟨?_, rfl⟩
    rw [Scopes.declares, hframe, Option.any_some] at hdeclares
    rw [← Frame.slot?_eq_none]
    simpa using hdeclares

/-- Variables are added to the frame that has been made last, one after the other. -/
theorem ensures_addSlots {l : List α} {op : α → MachineM PUnit} (node : α → NodeId) (entry : α → Name × Slot)
    {env current : Env}
    (hop : ∀ a ∈ l, ∀ t : State, t.env = current →
      op a t = onName p (node a) (entry a).1 (Scopes.addSlot env (entry a).1 (entry a).2) t)
    {fs : Array Frame} {f : Frame} (hframes : s.scopes.frames = fs.push f) (henv : env.frame = fs.size)
    (hcurrent : s.env = current) (hnames : (f.head.map Prod.fst).Nodup) :
    Ensures (l.forM op) s
      (fun _ s' => (((l.map entry).reverse ++ f.head).map Prod.fst).Nodup ∧
        s' = { s with scopes := ⟨fs.push { f with head := (l.map entry).reverse ++ f.head }⟩ })
      fun e _ => NotUnderflow e := by
  induction l generalizing s f with
  | nil =>
    refine ⟨hnames, ?_⟩
    show s = { s with scopes := ⟨fs.push f⟩ }
    rw [← hframes]
  | cons a l ih =>
    rw [List.forall_mem_cons] at hop
    show Ensures (op a >>= fun _ => l.forM op) s _ _
    rw [ensures_bind]
    have hadded := ensures_addSlot (p := p) hframes henv (node a) (entry a).1 (entry a).2
    unfold Ensures at hadded
    rw [← hop.1 s hcurrent] at hadded
    refine Ensures.mono (x := op a) hadded (fun _ s' ⟨hnew, hs'⟩ => ?_) fun _ _ h => h
    subst hs'
    have hcons : ((f.insert (entry a).1 (entry a).2).head.map Prod.fst).Nodup :=
      List.nodup_cons.mpr ⟨hnew, hnames⟩
    refine (ih (s := { s with scopes := ⟨fs.push _⟩ }) hop.2 rfl hcurrent hcons).mono (fun _ s' h => ?_)
      fun _ _ h => h
    rwa [List.map_cons, List.reverse_cons, List.append_assoc]

/-- The declared variables of some statements are added to the frame that has been made last. -/
theorem ensures_declareAll (body : List NodeId) {fs : Array Frame} {f : Frame}
    (hframes : s.scopes.frames = fs.push f) (henv : s.env.frame = fs.size)
    (hnames : (f.head.map Prod.fst).Nodup) :
    Ensures (declareAll p body) s
      (fun _ s' => (((declaredSlots (p.tree.declarations body)).reverse ++ f.head).map Prod.fst).Nodup ∧
        s' = { s with scopes :=
          ⟨fs.push { f with head := (declaredSlots (p.tree.declarations body)).reverse ++ f.head }⟩ })
      fun e _ => NotUnderflow e := by
  have declares : ∀ d ∈ p.tree.declarations body, ∀ t : State, t.env = s.env →
      (fun d : NodeId × Name × DeclKind => get >>= fun s =>
          onName p d.1 d.2.1 (Scopes.declare s.env d.2.1 d.2.2.mutability)) d t =
        onName p d.1 d.2.1 (Scopes.addSlot s.env d.2.1 ⟨none, d.2.2.mutability⟩) t := by
    intro d _ t ht
    rw [← ht]
    rfl
  exact ensures_addSlots Prod.fst (fun d : NodeId × Name × DeclKind => (d.2.1, ⟨none, d.2.2.mutability⟩)) declares
    hframes henv rfl hnames

theorem ensures_enterFrame (name : String) (s : State) :
    Ensures (enterFrame name) s
      (fun _ s' => s' = { s with
        env := ⟨s.nextEnvId, s.scopes.frames.size⟩
        nextEnvId := s.nextEnvId + 1
        scopes := ⟨s.scopes.frames.push (.ofName name (some s.env))⟩ })
      fun e _ => NotUnderflow e :=
  rfl

/-- The frame of a call has the parameters with their values, and what the body declares without. -/
theorem ensures_closureFrame (f : Closure) (params : List Name) (args : List Value) (receiver : Option Value)
    (node : NodeId) (body : FunctionBody) (s : State) :
    Ensures (closureFrame p f params args receiver node body) s
      (fun _ s' => ∃ name, (((declaredSlots (p.tree.bodyDeclarations body)).reverse ++
          (parameterSlots params args).reverse).map Prod.fst).Nodup ∧
        s' = { s with
          env := ⟨s.nextEnvId, s.scopes.frames.size⟩
          nextEnvId := s.nextEnvId + 1
          scopes := ⟨s.scopes.frames.push ⟨name,
            (declaredSlots (p.tree.bodyDeclarations body)).reverse ++ (parameterSlots params args).reverse,
            some f.env, some node, receiver⟩⟩ }) fun e _ => NotUnderflow e := by
  unfold closureFrame
  dsimp only
  rw [ensures_bind]
  -- The frame is made without variables; the parameters come next, then what the body declares.
  obtain ⟨made, hmade⟩ : ∃ made : Frame, made = ⟨(f.name.map p.nameText).getD anonymous, [], some f.env, some node,
    receiver⟩ := ⟨_, rfl⟩
  obtain ⟨t, ht⟩ : ∃ t : State, t = { s with nextEnvId := s.nextEnvId + 1, scopes := ⟨s.scopes.frames.push made⟩ } :=
    ⟨_, rfl⟩
  have defines : ∀ pair ∈ params.zip args, ∀ r : State, r.env = t.env →
      (fun pair : Name × Value => onName p node pair.1
          (Scopes.define ⟨s.nextEnvId, s.scopes.frames.size⟩ pair.1 pair.2 .assignable)) pair r =
        onName p node pair.1 (Scopes.addSlot ⟨s.nextEnvId, s.scopes.frames.size⟩ pair.1
          ⟨some pair.2, .assignable⟩) r :=
    fun _ _ _ _ => rfl
  have hadded := ensures_addSlots (fun _ => node)
    (fun pair : Name × Value => (pair.1, ⟨some pair.2, .assignable⟩)) defines (s := t) (f := made)
    (by rw [ht]) rfl rfl (by rw [hmade]; exact List.nodup_nil)
  subst hmade ht
  rw [← parameterSlots, List.append_nil] at hadded
  show Ensures _ { s with nextEnvId := s.nextEnvId + 1, scopes := ⟨s.scopes.frames.push _⟩ } _ _
  rw [ensures_bind]
  refine hadded.mono (fun _ s' ⟨hnames, hs'⟩ => ?_) fun _ _ h => h
  subst hs'
  rw [ensures_bind]
  show Ensures _ (State.mk _ _ ⟨s.nextEnvId, s.scopes.frames.size⟩ _ _ _ _ _ _ _ _ _ _) _ _
  cases body with
  | expression expr => exact ⟨_, hnames, rfl⟩
  | block statements =>
    refine (ensures_declareAll statements rfl rfl hnames).mono (fun _ s' ⟨hnames, hs'⟩ => ?_) fun _ _ h => h
    subst hs'
    exact ⟨_, hnames, rfl⟩

/-! ## 2. Nodes -/

theorem opensScope_eq (kind : NodeKind) : opensScope p kind = !(p.tree.opened kind).isEmpty := by
  cases kind with
  | forLoop init test update body =>
    show (loopDeclaration p init).isSome = !(p.tree.headDeclarations init).isEmpty
    rw [← loopDeclaration_toList]
    cases loopDeclaration p init <;> rfl
  | _ => rfl

theorem offers_evalCall (id callee : NodeId) (args : List NodeId) :
    Offers 0 1 [callItems p id callee args] (evalCall p id callee args) := by
  unfold evalCall callItems
  cases hkind : p.tree.kind? callee with
  | none => exact offers_missing callee hkind
  | some kind =>
    unfold kindOf
    rw [hkind]
    cases kind with
    | member object property => cases property <;> exact offers_schedule (List.cons_ne_nil _ _)
    | _ => exact offers_schedule (List.cons_ne_nil _ _)

/-- A node that opens no scope of its own leaves its value at once, or puts the work in front that does. -/
theorem offers_kindWork (id : NodeId) {kind : NodeKind} (hopened : p.tree.opened kind = [])
    (hreturn : ∀ argument, kind ≠ .returnStatement argument) :
    Offers 0 1 [kindItems p id kind] (kindWork p id kind) := by
  have block : ∀ body name, p.tree.declarations body = [] →
      Offers 0 1 [Agenda.ofStatements body] (blockWork p body name) := by
    intro body name h
    have hnone : p.tree.hasDeclarations body = false := by rw [Tree.hasDeclarations, h]; rfl
    unfold blockWork
    rw [hnone]
    exact offers_schedule (Agenda.ofStatements_ne_nil body)
  cases kind with
  | program body => exact block body _ hopened
  | block body => exact block body _ hopened
  | forLoop init test update body =>
    have hhead : p.tree.headDeclarations init = [] := hopened
    have hnone : loopDeclaration p init = none := by
      rw [← loopDeclaration_toList] at hhead
      exact Option.toList_eq_nil_iff.mp hhead
    show Offers 0 1 [forItems id init test update body ((p.tree.headDeclarations init).map fun d => d.2.1)]
      (forWork p id init test update body)
    unfold forWork
    rw [hnone, hhead]
    exact offers_schedule (List.append_ne_nil_of_right_ne_nil _ (List.cons_ne_nil _ _))
  | returnStatement argument => exact absurd rfl (hreturn argument)
  | debuggerStatement => exact quiet_push _
  | literal literal => exact quiet_push _
  | identifier name =>
    refine quiet_get.bind fun s => quiet_get.bind fun s' => ?_
    split
    · exact quiet_push _
    · exact quiet_failAt (Fault.ne_stashUnderflow (ScopeError.fault_regular _ _))
  | this => exact quiet_get.bind fun s => quiet_get.bind fun s' => quiet_push _
  | function name params body =>
    exact Offers.bind (quiet_freshIdentity.bind fun _ => quiet_get.bind fun _ => quiet_pure _) fun v => quiet_push v
  | call callee args => exact offers_evalCall id callee args
  | arrayLiteral elements => exact offers_schedule (List.append_ne_nil_of_right_ne_nil _ (List.cons_ne_nil _ _))
  | objectLiteral properties => exact offers_schedule (List.append_ne_nil_of_right_ne_nil _ (List.cons_ne_nil _ _))
  | _ => exact offers_schedule (List.cons_ne_nil _ _)

theorem kindItems_ne_nil {id : NodeId} {kind : NodeKind} (hopened : p.tree.opened kind ≠ []) :
    kindItems p id kind ≠ [] := by
  cases kind with
  | program body => exact Agenda.ofStatements_ne_nil body
  | block body => exact Agenda.ofStatements_ne_nil body
  | forLoop init test update body => exact List.append_ne_nil_of_right_ne_nil _ (List.cons_ne_nil _ _)
  | _ => exact absurd rfl hopened

/-- A scope that declares something is entered. -/
theorem opens_enter (name : String) {ds : List (NodeId × Name × DeclKind)} {x : MachineM PUnit} {items : List Item}
    (hx : ∀ (fs : Array Frame) (f : Frame) (t : State), t.scopes.frames = fs.push f → t.env.frame = fs.size →
      f.head = [] → Ensures x t (fun _ t' => ((declaredSlots ds).map Prod.fst).Nodup ∧
        t' = { t with scopes := ⟨fs.push { f with head := (declaredSlots ds).reverse }⟩ }) fun e _ => NotUnderflow e)
    (s : State) :
    Ensures (enterFrame name >>= fun _ => x >>= fun _ => schedule items) s (fun _ s' => s.Opens ds items s')
      fun e _ => NotUnderflow e := by
  rw [ensures_bind]
  refine (ensures_enterFrame name s).mono (fun _ t ht => ?_) fun _ _ h => h
  subst ht
  rw [ensures_bind]
  refine (hx s.scopes.frames _ _ rfl rfl rfl).mono (fun _ t' ⟨hnames, ht'⟩ => ?_) fun _ _ h => h
  subst ht'
  rw [declaredSlots, List.map_map] at hnames
  exact ⟨rfl, rfl, rfl, rfl, hnames, name, rfl, rfl, rfl⟩

/-- A node that opens a scope of its own. -/
theorem opens_kindWork (id : NodeId) {kind : NodeKind} (hopened : p.tree.opened kind ≠ []) (s : State) :
    Ensures (kindWork p id kind) s (fun _ s' => s.Opens (p.tree.opened kind) (kindItems p id kind) s')
      fun e _ => NotUnderflow e := by
  have block : ∀ body name, p.tree.declarations body ≠ [] →
      Ensures (blockWork p body name) s
        (fun _ s' => s.Opens (p.tree.declarations body) (Agenda.ofStatements body) s') fun e _ => NotUnderflow e := by
    intro body name h
    have hdeclares : p.tree.hasDeclarations body = true := by
      rw [Tree.hasDeclarations]
      cases hd : p.tree.declarations body with
      | nil => exact absurd hd h
      | cons d ds => rfl
    unfold blockWork
    rw [hdeclares]
    refine opens_enter name (fun fs f t hframes henv hhead => ?_) s
    refine (ensures_declareAll body hframes henv (by rw [hhead]; exact List.nodup_nil)).mono
      (fun _ t' ⟨hnames, ht'⟩ => ?_) fun _ _ h => h
    rw [hhead, List.append_nil] at hnames ht'
    rw [List.map_reverse, List.nodup_reverse] at hnames
    exact ⟨hnames, ht'⟩
  cases kind with
  | program body => exact block body _ hopened
  | block body => exact block body _ hopened
  | forLoop init test update body =>
    show Ensures (forWork p id init test update body) s (fun _ s' => s.Opens (p.tree.headDeclarations init)
      (forItems id init test update body ((p.tree.headDeclarations init).map fun d => d.2.1)) s') _
    have hdeclared : p.tree.headDeclarations init ≠ [] := hopened
    have hhead := loopDeclaration_toList (p := p) init
    unfold forWork
    cases hloop : loopDeclaration p init with
    | none =>
      rw [hloop] at hhead
      exact absurd hhead.symm hdeclared
    | some d =>
      obtain ⟨node, name, kind⟩ := d
      rw [hloop, Option.toList_some] at hhead
      rw [← hhead]
      refine opens_enter "for" (x := get >>= fun s =>
        onName p node name (Scopes.declare s.env name kind.mutability)) (fun fs f t hframes henv hnone => ?_) s
      refine (ensures_addSlot hframes henv node name ⟨none, kind.mutability⟩).mono (fun _ t' ⟨_, ht'⟩ => ?_)
        fun _ _ h => h
      refine ⟨List.nodup_singleton _, ?_⟩
      rw [ht', Frame.insert, hnone]
      rfl
  | _ => exact absurd rfl hopened

end Machine

end ExplicitControl
