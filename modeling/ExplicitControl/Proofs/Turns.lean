import ExplicitControl.Proofs.Exchanges
import ExplicitControl.Proofs.Local
import ExplicitControl.Proofs.Placement

/-!
# A turn of control, then local work

Evaluating a node first changes control, if at all: a block that declares something sees to the end of its
scope, `return` drops or schedules the rest of its function.  Then comes work that leaves control alone, except
for items put in front.  `State.turned` is the first half and `kindWork` the second.
-/

namespace ExplicitControl

def Item.isQuiet (item : Item) : Bool :=
  !item.isRestore && !item.isMarker .call

theorem Item.not_isRestore_of_isQuiet {item : Item} (h : item.isQuiet = true) :
    item.isRestore = false := by
  simp only [isQuiet, Bool.and_eq_true, Bool.not_eq_true'] at h
  exact h.1

theorem Item.not_isMarker_of_isQuiet {item : Item} (h : item.isQuiet = true) :
    item.isMarker .call = false := by
  simp only [isQuiet, Bool.and_eq_true, Bool.not_eq_true'] at h
  exact h.2

theorem Agenda.isQuiet_ofStatements (ids : List NodeId) :
    ∀ item ∈ ofStatements ids, item.isQuiet = true :=
  forall_mem_ofStatements (fun _ _ => rfl) rfl rfl

/-! ## 1. Turns -/

def Agenda.endsScope (a : Agenda) : Bool :=
  a.head?.any Item.isRestore

theorem Agenda.endsScope_cons {item : Item} (hitem : item.isRestore = false) (a : Agenda) :
    endsScope (item :: a) = false := by
  rw [endsScope, List.head?_cons, Option.any_some, hitem]

def State.opened (s : State) : State :=
  if s.agenda.head?.any Item.isRestore then s
  else { s with agenda := .instr (.restore s.env false) :: s.agenda }

/-- What is behind the body of a call: the end of the call, for which the end of a scope or of another call
serves if it comes next. -/
def Agenda.closing (env : Env) (a : Agenda) : Agenda :=
  if a.head?.any Item.isRestore then Machine.closeWithNext a else .instr (.restore env true) :: a

def Agenda.endsCall (a : Agenda) : Bool :=
  a.head?.any Item.closesCall

def Tree.headDeclarations (t : Tree) (init : Option NodeId) : List (NodeId × Name × DeclKind) :=
  init.toList.filterMap fun id =>
    match t.kind? id with
    | some (.declaration kind name _) => some (id, name, kind)
    | _ => none

def CallStack.add (frame : CallFrame) (c : CallStack) : CallStack :=
  { c with frames := c.frames.push frame }

def State.entered (frame : CallFrame) (s : State) : State :=
  { s with
    agenda := s.agenda.closing s.env
    calls := (if s.agenda.endsCall then s.calls.pop else s.calls).add frame }

namespace Machine

def returnItem (argument : Option NodeId) : Item :=
  (argument.map Item.node).getD (.instr (.push .undefined))

theorem isQuiet_returnItem (argument : Option NodeId) : (returnItem argument).isQuiet = true := by
  cases argument <;> rfl

def enterFrame (name : String) : MachineM Unit := do
  let env := (← get).env
  setEnv (← newFrame fun id scopes => scopes.child env id name)

def blockWork (p : Setting) (body : List NodeId) (name : String) : MachineM Unit := do
  if p.tree.hasDeclarations body then
    enterFrame name
    declareAll p body
  schedule (Agenda.ofStatements body)

def forItems (id : NodeId) (init test update : Option NodeId) (body : NodeId) (vars : List Name) :
    List Item :=
  (init.map fun node => [Item.node node, .instr .pop]).getD [] ++
    [.instr (.freshTrip vars), .instr (.push .undefined), loopTest test,
      .instr (.forTest test update body vars id), .instr (.marker .loopEnd)]

def forWork (p : Setting) (id : NodeId) (init test update : Option NodeId) (body : NodeId) :
    MachineM Unit :=
  match loopDeclaration p init with
  | some (node, name, kind) => do
    enterFrame "for"
    onName p node name (Scopes.declare (← get).env name kind.mutability)
    schedule (forItems id init test update body [name])
  | none => schedule (forItems id init test update body [])

def kindWork (p : Setting) (id : NodeId) : NodeKind → MachineM Unit
  | .program body => blockWork p body "program"
  | .block body => blockWork p body "block"
  | .forLoop init test update body => forWork p id init test update body
  | .returnStatement _ => pure ()
  | kind => evalKind p id kind

def callItems (p : Setting) (id callee : NodeId) (args : List NodeId) : List Item :=
  match p.tree.kind? callee with
  | some (.member object (.named name)) =>
    .node object :: .instr (.methodLookup (some name) callee) ::
      (args.map Item.node ++ [.instr (.apply args.length true id)])
  | some (.member object (.computed key)) =>
    .node object :: .node key :: .instr (.methodLookup none callee) ::
      (args.map Item.node ++ [.instr (.apply args.length true id)])
  | _ => .node callee :: (args.map Item.node ++ [.instr (.apply args.length false id)])

/-- The items that evaluating a node of a given kind puts in front, when control has turned for it. -/
def kindItems (p : Setting) (id : NodeId) : NodeKind → List Item
  | .program body | .block body => Agenda.ofStatements body
  | .expressionStatement expr => [.node expr]
  | .declaration _ name init => [.node init, .instr (.declare name id)]
  | .functionDeclaration name declared => [.node declared, .instr (.declare name id)]
  | .ifStatement test consequent alternate => [.node test, .instr (.branch consequent alternate id)]
  | .whileLoop test body =>
    [.instr (.push .undefined), .node test, .instr (.whileTest test body id), .instr (.marker .loopEnd)]
  | .forLoop init test update body =>
    forItems id init test update body ((p.tree.headDeclarations init).map fun d => d.2.1)
  | .breakStatement => [.instr (.breakLoop id)]
  | .continueStatement => [.instr (.continueLoop id)]
  | .returnStatement _ | .debuggerStatement | .literal _ | .identifier _ | .this | .function .. => []
  | .unary op operand => [.node operand, .instr (.unary op id)]
  | .binary op left right => [.node left, .node right, .instr (.binary op id)]
  | .logical op left right => [.node left, .instr (.logical op right id)]
  | .conditional test consequent alternate =>
    [.node test, .instr (.branch consequent (some alternate) id)]
  | .assignment name value => [.node value, .instr (.assign name id)]
  | .call callee args => callItems p id callee args
  | .arrayLiteral elements => elements.map Item.node ++ [.instr (.makeArray elements.length id)]
  | .objectLiteral properties =>
    properties.map (fun property => Item.node property.2) ++ [.instr (.makeObject (properties.map Prod.fst) id)]
  | .member object property => [.node object, keyItem p property, .instr (.memberGet id)]
  | .memberAssignment object property value =>
    [.node object, keyItem p property, .node value, .instr (.memberSet id)]

def opensScope (p : Setting) : NodeKind → Bool
  | .program body | .block body => p.tree.hasDeclarations body
  | .forLoop init _ _ _ => (loopDeclaration p init).isSome
  | _ => false

end Machine

def State.turned (p : Setting) (kind : NodeKind) (s : State) : State :=
  match kind with
  | .program _ =>
    let s := { s with agenda := .instr .pushUndefinedIfNeeded :: s.agenda }
    if Machine.opensScope p kind then s.opened else s
  | .returnStatement argument =>
    -- In tail position nothing but the end of the call is left to come back to.
    if Agenda.inTailPosition s.agenda then
      { s with agenda := Machine.returnItem argument :: Agenda.unwindCall s.agenda }
    else { s with agenda := Machine.returnItem argument :: .instr .reset :: s.agenda }
  | _ => if Machine.opensScope p kind then s.opened else s

namespace Machine

variable {p : Setting}

/-- A turn changes nothing but the agenda. -/
theorem turned_eq (kind : NodeKind) (s : State) :
    s.turned p kind = { s with agenda := (s.turned p kind).agenda } := by
  have opened : ∀ s : State,
      (if opensScope p kind then s.opened else s) =
        { s with agenda := (if opensScope p kind then s.opened else s).agenda } := by
    intro s
    split
    · unfold State.opened
      split <;> rfl
    · rfl
  cases kind with
  | returnStatement argument => unfold State.turned; dsimp only; split <;> rfl
  | program body => exact opened { s with agenda := .instr .pushUndefinedIfNeeded :: s.agenda }
  | _ => exact opened s

theorem enterScope_eq (name : String) (s : State) : enterScope name s = enterFrame name s.opened := by
  unfold enterScope State.opened
  rw [get_bind, get_bind]
  split
  · rfl
  · rfl

theorem evalBlock_eq (body : List NodeId) (name : String) (s : State) :
    evalBlock p body name s =
      blockWork p body name (if p.tree.hasDeclarations body then s.opened else s) := by
  unfold evalBlock blockWork
  dsimp only
  split
  · exact bind_congr_first (enterScope_eq name s)
  · rfl

theorem evalFor_eq (id : NodeId) (init test update : Option NodeId) (body : NodeId) (s : State) :
    evalFor p id init test update body s =
      forWork p id init test update body (if (loopDeclaration p init).isSome then s.opened else s) := by
  unfold evalFor forWork
  dsimp only
  cases loopDeclaration p init with
  | none => rfl
  | some declared => exact bind_congr_first (enterScope_eq "for" s)

/-- Evaluating a node is a turn of control, and then the work of its kind. -/
theorem evalKind_eq (id : NodeId) (kind : NodeKind) (s : State) :
    evalKind p id kind s = kindWork p id kind (s.turned p kind) := by
  -- Four kinds turn control; for the others the turn is none, and both sides are the same.
  cases kind with
  | program body =>
    show (schedule [.instr .pushUndefinedIfNeeded] >>= fun _ => evalBlock p body "program") s = _
    rw [schedule_bind]
    exact evalBlock_eq body "program" _
  | block body => exact evalBlock_eq body "block" s
  | forLoop init test update body => exact evalFor_eq id init test update body s
  | returnStatement argument =>
    show evalReturn argument s = _
    unfold evalReturn State.turned
    dsimp only
    rw [get_bind]
    split
    · rfl
    · rfl
  | _ => rfl

/-! ## 2. Local work -/

variable {P : Item → Prop}

theorem local_declareAll (body : List NodeId) : Local P (declareAll p body) :=
  local_forM fun _ => local_get_bind (fun _ _ => rfl) fun _ => local_onName _ _ _

theorem local_enterFrame (name : String) : Local P (enterFrame name) :=
  local_get_bind (fun _ _ => rfl) fun _ => (local_newFrame _).bind fun env => local_setEnv env

theorem local_blockWork (body : List NodeId) (name : String) :
    Local (· ∈ Agenda.ofStatements body) (blockWork p body name) := by
  have scheduled : Local (· ∈ Agenda.ofStatements body) (schedule (Agenda.ofStatements body)) :=
    local_schedule fun _ h => h
  unfold blockWork
  dsimp only
  split
  · exact (local_enterFrame name).bind fun _ => (local_declareAll body).bind fun _ => scheduled
  · exact scheduled

theorem loopDeclaration_toList (init : Option NodeId) :
    (loopDeclaration p init).toList = p.tree.headDeclarations init := by
  cases init with
  | none => rfl
  | some id =>
    unfold loopDeclaration Tree.headDeclarations
    simp only [Option.bind_some, Option.toList_some, List.filterMap_cons, List.filterMap_nil]
    cases p.tree.kind? id with
    | none => rfl
    | some kind => cases kind <;> rfl

theorem local_forWork (id : NodeId) (init test update : Option NodeId) (body : NodeId) :
    Local (· ∈ forItems id init test update body ((p.tree.headDeclarations init).map fun d => d.2.1))
      (forWork p id init test update body) := by
  have hhead := loopDeclaration_toList (p := p) init
  unfold forWork
  cases hloop : loopDeclaration p init with
  | none =>
    rw [hloop] at hhead
    rw [← hhead]
    exact local_schedule fun _ h => h
  | some declared =>
    rw [hloop] at hhead
    rw [← hhead]
    exact (local_enterFrame _).bind fun _ => local_get_bind (fun _ _ => rfl) fun _ =>
      (local_onName _ _ _).bind fun _ => local_schedule fun _ h => h

theorem local_evalIdentifier (id : NodeId) (name : Name) : Local P (evalIdentifier p id name) := by
  refine local_get_bind (fun _ _ => rfl) fun s => local_get_bind (fun _ _ => rfl) fun s' => ?_
  split
  · exact local_push _
  · exact local_failAt _ _

theorem local_makeClosure (id : NodeId) (name : Option Name) (arity : Nat) :
    Local P (makeClosure id name arity) :=
  local_freshIdentity.bind fun _ => local_get_bind (fun _ _ => rfl) fun _ => local_pure _

theorem local_evalCall (id callee : NodeId) (args : List NodeId) :
    Local (· ∈ callItems p id callee args) (evalCall p id callee args) := by
  refine local_kindOf_bind fun kind hcallee => ?_
  unfold callItems
  rw [hcallee]
  cases kind with
  | member object property => cases property <;> exact local_schedule fun _ h => h
  | _ => exact local_schedule fun _ h => h

/-- What evaluating a node does when control has turned has nothing to do with control. -/
theorem local_kindWork (id : NodeId) (kind : NodeKind) :
    Local (· ∈ kindItems p id kind) (kindWork p id kind) := by
  cases kind with
  | program body => exact local_blockWork body _
  | block body => exact local_blockWork body _
  | forLoop init test update body => exact local_forWork id init test update body
  | returnStatement argument => exact local_pure _
  | debuggerStatement => exact local_push _
  | literal literal => exact local_push _
  | identifier name => exact local_evalIdentifier id name
  | this => exact local_get_bind (fun _ _ => rfl) fun _ => local_get_bind (fun _ _ => rfl) fun _ => local_push _
  | function name params body => exact (local_makeClosure _ _ _).bind fun _ => local_push _
  | call callee args => exact local_evalCall id callee args
  | _ => exact local_schedule fun _ h => h

def isLocalInstr : Instr → Bool
  | .restore .. | .reset | .breakLoop _ | .continueLoop _ | .apply .. => false
  | _ => true

theorem local_execInstr {i : Instr} (hi : isLocalInstr i = true) :
    Local (fun item => ∃ items ∈ i.offers, item ∈ items) (execInstr p i) := by
  have found : ∀ {P : Item → Prop} (node : NodeId) (r : Except Fault Value), Local P (orFailAt p node r >>= push) :=
    fun node r => (local_orFailAt node r).bind fun v => local_push v
  have first : ∀ {items : List Item} {l : List (List Item)},
      Local (fun item => ∃ offer ∈ items :: l, item ∈ offer) (schedule items) :=
    local_schedule fun item hitem => ⟨_, List.mem_cons_self, hitem⟩
  have second : ∀ {items other : List Item} {l : List (List Item)},
      Local (fun item => ∃ offer ∈ other :: items :: l, item ∈ offer) (schedule items) :=
    local_schedule fun item hitem => ⟨_, List.mem_cons_of_mem _ List.mem_cons_self, hitem⟩
  cases i with
  | marker m =>
    cases m with
    | call => exact local_onStash _
    | loopEnd => exact local_pure _
    | tripEnd => exact local_pure _
  | pop => exact local_pop.bind fun _ => local_pure _
  | push v => exact local_push v
  | pushUndefinedIfNeeded =>
    refine local_get_bind (fun _ _ => rfl) fun s => ?_
    split
    · exact local_push _
    · exact local_pure _
  | assign name node =>
    exact (local_onStash _).bind fun v => local_get_bind (fun _ _ => rfl) fun s => local_onName _ _ _
  | declare name node =>
    exact local_pop.bind fun v => local_get_bind (fun _ _ => rfl) fun s =>
      (local_onName _ _ _).bind fun _ => local_push _
  | unary op node => exact local_pop.bind fun v => found node _
  | binary op node =>
    exact local_pop.bind fun right => local_pop.bind fun left =>
      local_get_bind (fun _ _ => rfl) fun s => found node _
  | logical op right node =>
    refine local_pop.bind fun v => (local_orFailAt _ _).bind fun b => ?_
    split
    · exact local_push _
    · exact second
  | branch consequent alternate node =>
    refine local_pop.bind fun v => (local_orFailAt _ _).bind fun b => ?_
    split
    · exact first
    · cases alternate with
      | none => exact local_push _
      | some id => exact second
  | whileTest test body node =>
    refine local_pop.bind fun v => (local_orFailAt _ _).bind fun b => ?_
    split
    · exact second
    · exact local_pure _
  | forTest test update body vars node =>
    refine local_pop.bind fun v => (local_orFailAt _ _).bind fun b => ?_
    split
    · exact second
    · exact local_pure _
  | freshTrip vars =>
    simp only [execInstr]
    split
    · exact local_pure _
    · exact local_get_bind (fun _ _ => rfl) fun s => (local_newFrame _).bind fun env => local_setEnv env
  | makeArray size node =>
    exact (local_onStash _).bind fun _ => (local_allocate _).bind fun v => local_push v
  | makeObject keys node =>
    exact (local_onStash _).bind fun _ => (local_allocate _).bind fun v => local_push v
  | memberGet node =>
    exact local_pop.bind fun key => local_pop.bind fun object =>
      local_get_bind (fun _ _ => rfl) fun s => found node _
  | memberSet node =>
    exact local_pop.bind fun v => local_pop.bind fun key => local_pop.bind fun object =>
      (local_onHeap _ _).bind fun _ => local_push v
  | methodLookup property node =>
    have looked : ∀ {P : Item → Prop} (key : Value), Local P (onStash Stash.peek >>= fun object =>
        get >>= fun s => orFailAt p node (findMethod p s.heap object key) >>= push) :=
      fun key => (local_onStash _).bind fun object => local_get_bind (fun _ _ => rfl) fun s => found node _
    cases property with
    | some name => exact (local_pure _).bind looked
    | none => exact local_pop.bind looked
  | _ => cases hi

/-! ## 3. Calls -/

/-- A call is made before the end of a call, before the end of a scope, or elsewhere. -/
theorem callPosition_cases (a : Agenda) :
    (∃ env rest, a = .instr (.restore env true) :: rest ∧ callPosition a = .tailOfCall) ∨
      (∃ env rest, a = .instr (.restore env false) :: rest ∧ callPosition a = .tailOfBlock) ∨
      (a.head?.any Item.isRestore = false ∧ callPosition a = .nested) := by
  unfold callPosition
  split
  · exact .inl ⟨_, _, rfl, rfl⟩
  · exact .inr (.inl ⟨_, _, rfl, rfl⟩)
  next hcall hblock =>
    -- The first two cases are all the items that bring an environment back.
    refine .inr (.inr ⟨?_, rfl⟩)
    cases a with
    | nil => rfl
    | cons item rest =>
      cases hitem : item.isRestore with
      | false => exact hitem
      | true =>
        obtain ⟨env, closesCall, rfl⟩ := Item.isRestore_iff.mp hitem
        cases closesCall with
        | true => exact absurd rfl (hcall env rest)
        | false => exact absurd rfl (hblock env rest)

theorem endsCall_eq_false {a : Agenda} (h : a.head?.any Item.isRestore = false) : a.endsCall = false := by
  cases a with
  | nil => rfl
  | cons item rest => exact Item.closesCall_of_not_isRestore h

/-- The end of a call is an item of its own, or the next one serves. -/
theorem closing_cases (env : Env) (a : Agenda) :
    (a.head?.any Item.isRestore = false ∧ a.endsCall = false ∧
        a.closing env = .instr (.restore env true) :: a) ∨
      ∃ env' closesCall rest, a = .instr (.restore env' closesCall) :: rest ∧ a.endsCall = closesCall ∧
        a.closing env = .instr (.restore env' true) :: rest := by
  cases hhead : a.head?.any Item.isRestore with
  | false => exact .inl ⟨rfl, endsCall_eq_false hhead, if_neg (by rw [hhead]; decide)⟩
  | true =>
    cases a with
    | nil => cases hhead
    | cons item rest =>
      obtain ⟨env', closesCall, rfl⟩ := Item.isRestore_iff.mp hhead
      exact .inr ⟨env', closesCall, rest, rfl, rfl, rfl⟩

/-- A call is entered, for which there must be room unless it takes the place of another, or it comes to the limit. -/
theorem enterCall_split (p : Setting) (node : NodeId) (frame : CallFrame) (s : State) :
    (s.agenda.endsCall = true ∨ s.calls.depth < s.calls.maxDepth) ∧
        enterCall p node frame s = .ok () (s.entered frame) ∨
      s.agenda.endsCall = false ∧ s.calls.maxDepth ≤ s.calls.depth ∧
        enterCall p node frame s = .error ((s.calls.overflow frame).locate node (p.tree.span node)) s := by
  have recorded : ∀ f : Unit → MachineM Unit, s.agenda.endsCall = false →
      f () { s with calls := s.calls.add frame } = .ok () (s.entered frame) →
      (s.agenda.endsCall = true ∨ s.calls.depth < s.calls.maxDepth) ∧
          (onCalls p node (CallStack.push frame) >>= f) s = .ok () (s.entered frame) ∨
        s.agenda.endsCall = false ∧ s.calls.maxDepth ≤ s.calls.depth ∧
          (onCalls p node (CallStack.push frame) >>= f) s =
            .error ((s.calls.overflow frame).locate node (p.tree.span node)) s := by
    intro f hends hf
    obtain ⟨hroom, hpush⟩ | ⟨hfull, hpush⟩ := pushCall_split p node frame s
    · exact .inl ⟨.inr hroom, (bind_of_ok hpush).trans hf⟩
    · exact .inr ⟨hends, hfull, bind_of_error hpush⟩
  unfold enterCall
  rw [get_bind]
  obtain ⟨env, rest, hagenda, hposition⟩ | ⟨env, rest, hagenda, hposition⟩ | ⟨hhead, hposition⟩ :=
    callPosition_cases s.agenda
  · have hclosing : s.agenda.closing s.env = s.agenda := by rw [hagenda]; rfl
    have hends : s.agenda.endsCall = true := by rw [hagenda]; rfl
    rw [hposition, State.entered, hclosing, hends]
    exact .inl ⟨.inl rfl, rfl⟩
  · have hclosing : s.agenda.closing s.env = closeWithNext s.agenda := by rw [hagenda]; rfl
    have hends : s.agenda.endsCall = false := by rw [hagenda]; rfl
    rw [hposition]
    refine recorded _ hends ?_
    rw [State.entered, hclosing, hends]
    rfl
  · rw [hposition]
    refine recorded _ (endsCall_eq_false hhead) ?_
    rw [State.entered, Agenda.closing, hhead, endsCall_eq_false hhead]
    rfl

theorem enterCall_cases (p : Setting) (node : NodeId) (frame : CallFrame) (s : State) :
    enterCall p node frame s = .ok () (s.entered frame) ∨
      ∃ e, enterCall p node frame s = .error e s ∧ e.fault.isResource = true :=
  (enterCall_split p node frame s).imp And.right fun h => ⟨_, h.2.2, rfl⟩

def closureFrame (p : Setting) (f : Closure) (params : List Name) (args : List Value)
    (receiver : Option Value) (node : NodeId) (body : FunctionBody) : MachineM Unit := do
  let frameName := (f.name.map p.nameText).getD anonymous
  let env ← newFrame fun id scopes => scopes.call f.env id frameName node receiver
  (params.zip args).forM fun (param, arg) =>
    onName p node param (Scopes.define env param arg .assignable)
  setEnv env
  match body with
  | .expression _ => pure ()
  | .block statements => declareAll p statements

def bodyItems : FunctionBody → List Item
  | .expression expr => [.node expr]
  | .block statements => Agenda.ofStatements statements ++ [.instr (.marker .call)]

/-- A call with the right number of arguments enters, makes its frame, and schedules the body. -/
theorem applyClosure_eq {f : Closure} {fname : Option Name} {params : List Name} {body : FunctionBody}
    (hkind : p.tree.kind? f.node = some (.function fname params body)) {args : List Value}
    (harity : params.length = args.length) (receiver : Option Value) (node : NodeId) (name : String) :
    applyClosure p f args receiver node name = (do
      enterCall p node ⟨name, args, p.tree.span node⟩
      closureFrame p f params args receiver node body
      schedule (bodyItems body)) := by
  unfold applyClosure closureFrame
  simp only [hkind, harity, ne_eq, not_true_eq_false, if_false, bind_assoc]
  cases body with
  | expression expr => simp only [pure_bind]; rfl
  | block statements => rfl

/-- A call with another number of arguments fails before it enters. -/
theorem applyClosure_arity {f : Closure} {fname : Option Name} {params : List Name}
    {body : FunctionBody} (hkind : p.tree.kind? f.node = some (.function fname params body))
    {args : List Value} (harity : params.length ≠ args.length) (receiver : Option Value)
    (node : NodeId) (name : String) :
    applyClosure p f args receiver node name =
      failAt p node (.arityMismatch name (.exact params.length) args.length) := by
  funext s
  unfold applyClosure
  simp only [hkind, harity, ne_eq, not_false_eq_true, if_true]
  rfl

/-- A call of a function fails before it enters, unless the number of arguments is right. -/
theorem applyClosure_cases (p : Setting) (f : Closure) (args : List Value) (receiver : Option Value)
    (node : NodeId) (name : String) :
    (∃ fname params body, p.tree.kind? f.node = some (.function fname params body) ∧
      params.length = args.length) ∨
    ∃ fault, ((∃ expected given, fault = .arityMismatch name expected given) ∨
        ∃ message, fault = .malformedTree message ∧
          ∀ fname params body, p.tree.kind? f.node ≠ some (.function fname params body)) ∧
      applyClosure p f args receiver node name = failAt p node fault := by
  by_cases hfunction : ∃ fname params body, p.tree.kind? f.node = some (.function fname params body)
  · obtain ⟨fname, params, body, hkind⟩ := hfunction
    by_cases harity : params.length = args.length
    · exact .inl ⟨fname, params, body, hkind, harity⟩
    · exact .inr ⟨_, .inl ⟨_, _, rfl⟩, applyClosure_arity hkind harity receiver node name⟩
  · have hnone : ∀ fname params body, p.tree.kind? f.node ≠ some (.function fname params body) :=
      fun fname params body h => hfunction ⟨fname, params, body, h⟩
    refine .inr ⟨_, .inr ⟨"closure does not refer to a function", rfl, hnone⟩, ?_⟩
    unfold applyClosure
    split
    next fname params body hkind => exact absurd hkind (hnone _ _ _)
    next => rfl

theorem local_closureFrame (f : Closure) (params : List Name) (args : List Value)
    (receiver : Option Value) (node : NodeId) (body : FunctionBody) :
    Local P (closureFrame p f params args receiver node body) := by
  refine (local_newFrame _).bind fun env => (local_forM fun _ => local_onName _ _ _).bind fun _ =>
    (local_setEnv env).bind fun _ => ?_
  cases body with
  | expression expr => exact local_pure _
  | block statements => exact local_declareAll statements

theorem local_applyHost (f : HostFunction) (args : List Value) (receiver : Option Value)
    (node : NodeId) : Local P (applyHost p f args receiver node) := by
  unfold applyHost
  dsimp only
  split
  · exact ⟨fun _ _ => rfl, fun _ => trivial⟩
  · exact (local_onHost _ _).bind fun v => local_push v

theorem invoke_of_kept {snapshot : Nat} {args : List Value} (harity : ¬1 < args.length) {s : State}
    {k : Snapshot} (hk : s.snapshots[snapshot]? = some k) (node : NodeId) :
    invoke p snapshot args node s =
      .ok () { s with agenda := k.agenda, stash := args.head?.getD .undefined :: k.stash, env := k.env,
                      calls := k.calls } := by
  unfold invoke
  dsimp only
  rw [if_neg harity, get_bind, hk]
  rfl

theorem invoke_of_missing {snapshot : Nat} {args : List Value} (harity : ¬1 < args.length) {s : State}
    (hk : s.snapshots[snapshot]? = none) (node : NodeId) :
    invoke p snapshot args node s = failAt p node (.malformedTree "missing continuation") s := by
  unfold invoke
  dsimp only
  rw [if_neg harity, get_bind, hk]

theorem invoke_of_arity {snapshot : Nat} {args : List Value} (harity : 1 < args.length)
    (node : NodeId) (s : State) :
    invoke p snapshot args node s =
      failAt p node (.arityMismatch "continuation" (.atMost 1) args.length) s := by
  unfold invoke
  dsimp only
  rw [if_pos harity]
  rfl

end Machine

end ExplicitControl
