import ExplicitControl.Proofs.InTree
import ExplicitControl.Proofs.Loops

/-!
# The machine refines the structural evaluator

By induction on the fuel, the machine follows the evaluator on every node of a well-placed tree.  A program
therefore ends as its evaluation does: fuel for more trips and deeper recursion than the run has steps is
enough for an end, since an evaluation without fuel left would need a longer run.
-/

namespace ExplicitControl.Machine

open Agenda

variable {α : Type} {p : Setting} {fuel : Nat} {r : Structural.Evaluator} {a : Agenda} {stash : Stash}
  {env : Env} {s : State}

/-! ## 1. Expressions -/

theorem follows_key (hr : r.Faithful p fuel) {property : MemberProperty}
    (hkey : ∀ id ∈ property.key?, p.tree.isExpression id = true)
    (hs : s.At (keyItem p property :: a) stash env) :
    Follows p fuel s (Structural.key p r env property s.store) (Yielded a stash env) := by
  cases property with
  | computed id => exact hr.expression (hkey id rfl) hs
  | named name =>
    refine follows_last (y := pure (Value.string (p.nameText name))) hs fun t ht _ => ?_
    exact ⟨_, rfl, .inl ht.agenda, congrArg (_ :: ·) ht.stash, .inr ht.env⟩

/-- The member to be called is found, and its object stays beneath it. -/
theorem agrees_lookup {object key : Value} {written : NodeId} (hs : s.At a (object :: stash) env) :
    Agrees ((onStash Stash.peek >>= fun o => get >>= fun t =>
        orFailAt p written (findMethod p t.heap o key) >>= push) s)
      ((get >>= fun st => Structural.orFailAt p written (findMethod p st.heap object key)) s.store)
      fun _ => Yielded a (object :: stash) env := by
  rw [bind_of_ok (peek_eq hs.stash)]
  exact (agrees_orFailAt written _).push ⟨hs.agenda, rfl, hs.env⟩

/-- The arguments of a call, and then the call. -/
theorem follows_arguments (hr : r.Faithful p fuel) (ht : p.tree.WellPlaced) {args : List NodeId}
    (hargs : ∀ id ∈ args, p.tree.isExpression id = true) {f : Value} (receiver : Option Value)
    {node : NodeId}
    (hs : s.At (args.map Item.node ++ .instr (.apply args.length receiver.isSome node) :: a)
      (f :: (receiver.toList ++ stash)) env) :
    Follows p fuel s ((Structural.values r env args >>= fun vs =>
      Structural.call p r f vs receiver node) s.store) (Yielded a stash env) := by
  refine (follows_values hr rfl hargs hs).bind fun vs t hvs => ?_
  obtain ⟨hlength, hat⟩ := hvs
  rw [← hlength] at hat
  exact follows_call hr ht hat

/-- A callee that is not written as a member of an object. -/
theorem callee_eq_expression {written : NodeId} (env : Env)
    (h : ∀ object property, p.tree.kind? written ≠ some (.member object property)) :
    Structural.callee p r written env = r.expression written env >>= fun f => pure (f, none) := by
  unfold Structural.callee
  split
  next object property hkind => exact absurd hkind (h object property)
  next => rfl

/-- The items that find a member to be called, once its object is on the stash. -/
def lookupItems (written : NodeId) : MemberProperty → List Item
  | .named name => [.instr (.methodLookup (some name) written)]
  | .computed key => [.node key, .instr (.methodLookup none written)]

theorem evalKind_memberCall {id written object : NodeId} {property : MemberProperty}
    (hcallee : p.tree.kind? written = some (.member object property)) (args : List NodeId) :
    evalKind p id (.call written args) = schedule (.node object ::
      (lookupItems written property ++ (args.map Item.node ++ [.instr (.apply args.length true id)]))) := by
  have hkindOf : (kindOf p written : MachineM NodeKind) = pure (.member object property) := by
    rw [kindOf, hcallee]
  show evalCall p id written args = _
  unfold evalCall
  rw [hkindOf, pure_bind]
  cases property with
  | named name => rfl
  | computed key => rfl

theorem evalKind_plainCall {id written : NodeId} {kind : NodeKind} (hcallee : p.tree.kind? written = some kind)
    (hmember : ∀ object property, kind ≠ .member object property) (args : List NodeId) :
    evalKind p id (.call written args) = schedule (.node written ::
      (args.map Item.node ++ [.instr (.apply args.length false id)])) := by
  have hkindOf : (kindOf p written : MachineM NodeKind) = pure kind := by rw [kindOf, hcallee]
  show evalCall p id written args = _
  unfold evalCall
  rw [hkindOf, pure_bind]
  cases kind with
  | member object property => exact absurd rfl (hmember object property)
  | _ => rfl

/-- The member is found under its key, and the object stays beneath it as the receiver. -/
theorem follows_lookup (hr : r.Faithful p fuel) {written : NodeId} {property : MemberProperty}
    (hkey : ∀ i ∈ property.key?, p.tree.isExpression i = true) {o : Value}
    (hs : s.At (lookupItems written property ++ a) (o :: stash) env) :
    Follows p fuel s ((Structural.key p r env property >>= fun k => get >>= fun st =>
      Structural.orFailAt p written (findMethod p st.heap o k)) s.store) (Yielded a (o :: stash) env) := by
  cases property with
  | named name =>
    show Follows p fuel s ((get >>= fun st =>
      Structural.orFailAt p written (findMethod p st.heap o (.string (p.nameText name)))) s.store) _
    exact follows_last hs fun t ht _ => agrees_lookup ht
  | computed key =>
    refine (hr.expression (hkey key rfl) hs).bind fun k t ht => ?_
    refine follows_last (y := get >>= fun st => Structural.orFailAt p written (findMethod p st.heap o k))
      (ht.at rfl) fun u hu _ => ?_
    show Agrees ((pop >>= _) u) _ _
    rw [bind_of_ok (pop_eq hu.stash)]
    exact agrees_lookup ⟨hu.agenda, rfl, hu.env⟩

/-- The call of a member: the object is evaluated once, and is the receiver. -/
theorem follows_memberCall (hr : r.Faithful p fuel) (ht : p.tree.WellPlaced) {id written object : NodeId}
    {property : MemberProperty} {args : List NodeId}
    (hkind : p.tree.kind? id = some (.call written args))
    (hcallee : p.tree.kind? written = some (.member object property))
    (hs : s.At (.node id :: a) stash env) :
    Follows p (fuel + 1) s (Structural.application p r id env written args
      { s.store with current := some id }) (Yielded a stash env) := by
  have hobject : p.tree.isExpression object = true := ht.isExpression hcallee List.mem_cons_self
  have hkey : ∀ i ∈ property.key?, p.tree.isExpression i = true := fun i hi =>
    ht.isExpression hcallee (List.mem_cons_of_mem object (Option.mem_toList.mpr hi))
  have hargs : ∀ i ∈ args, p.tree.isExpression i = true := fun i hi =>
    ht.isExpression hkind (List.mem_cons_of_mem written hi)
  have hcall : Structural.application p r id env written args =
      r.expression object env >>= fun o => (Structural.key p r env property >>= fun k => get >>= fun st =>
        Structural.orFailAt p written (findMethod p st.heap o k)) >>= fun f =>
          Structural.values r env args >>= fun vs => Structural.call p r f vs (some o) id := by
    unfold Structural.application Structural.callee
    rw [hcallee]
    simp only [bind_assoc, pure_bind]
  rw [hcall]
  -- Behind object and key come the arguments and the call.
  let after : Agenda := args.map Item.node ++ .instr (.apply args.length true id) :: a
  refine follows_schedule hkind hs (evalKind_memberCall hcallee args) (g := r.expression object env >>= _)
    fun t ht' => ?_
  have hagenda : t.agenda = .node object :: (lookupItems written property ++ after) := by
    rw [ht'.agenda, List.cons_append, List.append_assoc, List.append_assoc]
    rfl
  have hlookup : endsScope (lookupItems written property ++ after) = false := by cases property <;> rfl
  refine (hr.expression hobject ⟨hagenda, ht'.stash, ht'.env⟩).bind fun o u hu => ?_
  refine (follows_lookup hr hkey (hu.at hlookup)).bind fun f w hw => ?_
  exact follows_arguments hr ht hargs (some o) (hw.at (endsScope_nodes args rfl))

/-- The call of anything else has no receiver. -/
theorem follows_plainCall (hr : r.Faithful p fuel) (ht : p.tree.WellPlaced) {id written : NodeId}
    {kind : NodeKind} {args : List NodeId} (hkind : p.tree.kind? id = some (.call written args))
    (hcallee : p.tree.kind? written = some kind) (hmember : ∀ object property, kind ≠ .member object property)
    (hs : s.At (.node id :: a) stash env) :
    Follows p (fuel + 1) s (Structural.application p r id env written args
      { s.store with current := some id }) (Yielded a stash env) := by
  have hwritten := ht.isExpression hkind (List.mem_cons_self : written ∈ written :: args)
  have hargs : ∀ i ∈ args, p.tree.isExpression i = true := fun i hi =>
    ht.isExpression hkind (List.mem_cons_of_mem written hi)
  have hplain : ∀ object property, p.tree.kind? written ≠ some (.member object property) := by
    intro object property h
    exact hmember object property (Option.some.inj (hcallee.symm.trans h))
  refine follows_schedule hkind hs (evalKind_plainCall hcallee hmember args)
    (g := Structural.application p r id env written args) fun t ht' => ?_
  unfold Structural.application
  rw [callee_eq_expression env hplain, bind_assoc]
  have hagenda := ht'.agenda
  rw [List.cons_append, List.append_assoc] at hagenda
  refine (hr.expression hwritten ⟨hagenda, ht'.stash, ht'.env⟩).bind fun f u hu => ?_
  have hu := hu.at (endsScope_nodes args rfl)
  exact follows_arguments hr ht hargs none hu

theorem follows_application (hr : r.Faithful p fuel) (ht : p.tree.WellPlaced) {id written : NodeId}
    {args : List NodeId} (hkind : p.tree.kind? id = some (.call written args))
    (hs : s.At (.node id :: a) stash env) :
    Follows p (fuel + 1) s (Structural.application p r id env written args
      { s.store with current := some id }) (Yielded a stash env) := by
  have hwritten := ht.isExpression hkind (List.mem_cons_self : written ∈ written :: args)
  obtain ⟨kind, hcallee, -⟩ := Tree.kind_of_isExpression hwritten
  by_cases hmember : ∃ object property, kind = .member object property
  · obtain ⟨object, property, rfl⟩ := hmember
    exact follows_memberCall hr ht hkind hcallee hs
  · exact follows_plainCall hr ht hkind hcallee (fun object property h => hmember ⟨object, property, h⟩) hs

/-- The value of a variable, or the fault of looking it up. -/
theorem agrees_evalIdentifier (id : NodeId) (name : Name) (hs : s.At a stash env) :
    Agrees (evalIdentifier p id name s) (Structural.identifier p id env name s.store)
      fun _ => Yielded a stash env := by
  obtain ⟨rfl, rfl, rfl⟩ := hs
  unfold evalIdentifier Structural.identifier
  rw [get_bind, get_bind, Structural.get_bind]
  dsimp only [State.store]
  cases s.scopes.lookup s.env name with
  | ok v => exact ⟨v, rfl, .inl rfl, rfl, .inr rfl⟩
  | error e => exact agrees_failAt id _

theorem follows_unary (hr : r.Faithful p fuel) {op : UnaryOp} {id operand : NodeId}
    (hoperand : p.tree.isExpression operand = true)
    (hs : s.At (.node operand :: .instr (.unary op id) :: a) stash env) :
    Follows p fuel s (Structural.expression p r id env (.unary op operand) s.store)
      (Yielded a stash env) := by
  refine (hr.expression hoperand hs).bind fun v t ht => ?_
  refine follows_last (ht.at rfl) fun u hu _ => ?_
  show Agrees ((pop >>= _) u) _ _
  rw [bind_of_ok (pop_eq hu.stash)]
  exact (agrees_orFailAt id _).push ⟨hu.agenda, rfl, hu.env⟩

/-- The left operand is evaluated first, and taken off the stash last. -/
theorem follows_binary (hr : r.Faithful p fuel) {op : BinaryOp} {id left right : NodeId}
    (hleft : p.tree.isExpression left = true) (hright : p.tree.isExpression right = true)
    (hs : s.At (.node left :: .node right :: .instr (.binary op id) :: a) stash env) :
    Follows p fuel s (Structural.expression p r id env (.binary op left right) s.store)
      (Yielded a stash env) := by
  refine (hr.expression hleft hs).bind fun v t ht => ?_
  refine (hr.expression hright (ht.at rfl)).bind fun w u hu => ?_
  refine follows_last (y := get >>= fun st => Structural.orFailAt p id (op.eval st.heap v w p.checks))
    (hu.at rfl) fun x hx _ => ?_
  show Agrees ((pop >>= _) x) _ _
  rw [bind_of_ok (pop_eq hx.stash), bind_of_ok (pop_eq rfl)]
  exact (agrees_orFailAt id _).push ⟨hx.agenda, rfl, hx.env⟩

/-- The right operand is evaluated unless the left one decides. -/
theorem follows_logical (hr : r.Faithful p fuel) {op : LogicalOp} {id left right : NodeId}
    (hleft : p.tree.isExpression left = true) (hright : p.tree.isExpression right = true)
    (hs : s.At (.node left :: .instr (.logical op right id) :: a) stash env) :
    Follows p fuel s (Structural.expression p r id env (.logical op left right) s.store)
      (Yielded a stash env) := by
  refine (hr.expression hleft hs).bind fun v t ht => ?_
  refine (follows_ask (ht.at rfl) (fun v => op.truth v p.checks) rfl fun b u hu => ?_).less (Nat.le_succ fuel)
  by_cases hdecides : (b == op.shortCircuitsOn) = true
  · rw [if_pos hdecides, if_pos hdecides]
    exact ⟨_, rfl, rfl, follows_pure ⟨.inl hu.agenda, congrArg (v :: ·) hu.stash, .inr hu.env⟩⟩
  · rw [if_neg hdecides, if_neg hdecides]
    exact ⟨_, rfl, rfl, hr.expression hright ⟨congrArg (_ :: ·) hu.agenda, hu.stash, hu.env⟩⟩

def otherwise : Option NodeId → MachineM Unit
  | some alternate => schedule [.node alternate]
  | none => push .undefined

theorem branch_conditional {id test consequent alternate : NodeId}
    (hkind : p.tree.kind? id = some (.conditional test consequent alternate)) :
    branch p consequent (some alternate) id = pop >>= fun v =>
      orFailAt p id (v.condition "conditional" p.checks) >>= fun b =>
        if b = true then schedule [.node consequent] else otherwise (some alternate) := by
  unfold branch
  rw [hkind]
  rfl

theorem branch_if {id test consequent : NodeId} {alternate : Option NodeId}
    (hkind : p.tree.kind? id = some (.ifStatement test consequent alternate)) :
    branch p consequent alternate id = pop >>= fun v =>
      orFailAt p id (v.condition "if" p.checks) >>= fun b =>
        if b = true then schedule [.node consequent] else otherwise alternate := by
  unfold branch
  rw [hkind]
  cases alternate with
  | some alternate => rfl
  | none => rfl

theorem follows_conditional (hr : r.Faithful p fuel) (ht : p.tree.WellPlaced)
    {id test consequent alternate : NodeId}
    (hkind : p.tree.kind? id = some (.conditional test consequent alternate))
    (hs : s.At (.node test :: .instr (.branch consequent (some alternate) id) :: a) stash env) :
    Follows p fuel s (Structural.expression p r id env (.conditional test consequent alternate) s.store)
      (Yielded a stash env) := by
  have htest : p.tree.isExpression test = true := ht.isExpression hkind List.mem_cons_self
  have hconsequent : p.tree.isExpression consequent = true :=
    ht.isExpression hkind (List.mem_cons_of_mem _ List.mem_cons_self)
  have halternate : p.tree.isExpression alternate = true :=
    ht.isExpression hkind (List.mem_cons_of_mem _ (List.mem_cons_of_mem _ List.mem_cons_self))
  refine (hr.expression htest hs).bind fun v t ht => ?_
  refine (follows_ask (ht.at rfl) (fun v => v.condition "conditional" p.checks) (branch_conditional hkind)
    fun b u hu => ?_).less (Nat.le_succ fuel)
  cases b with
  | true => exact ⟨_, rfl, rfl, hr.expression hconsequent ⟨congrArg (_ :: ·) hu.agenda, hu.stash, hu.env⟩⟩
  | false => exact ⟨_, rfl, rfl, hr.expression halternate ⟨congrArg (_ :: ·) hu.agenda, hu.stash, hu.env⟩⟩

/-- The value of an assignment is the value assigned, which stays on the stash. -/
theorem follows_assignment (hr : r.Faithful p fuel) {id value : NodeId} {name : Name}
    (hvalue : p.tree.isExpression value = true)
    (hs : s.At (.node value :: .instr (.assign name id) :: a) stash env) :
    Follows p fuel s (Structural.expression p r id env (.assignment name value) s.store)
      (Yielded a stash env) := by
  refine (hr.expression hvalue hs).bind fun v t ht => ?_
  refine (follows_instr (ht.at rfl) fun u hu _ => ?_).less (Nat.le_succ fuel)
  show Agrees ((onStash Stash.peek >>= _) u) _ _
  rw [bind_of_ok (peek_eq hu.stash), get_bind]
  dsimp only
  rw [hu.env]
  refine (agrees_onName id name _).mono fun _ _ x hx => ?_
  obtain ⟨-, st, rfl⟩ := hx
  exact follows_pure ⟨.inl hu.agenda, rfl, .inr rfl⟩

theorem follows_arrayLiteral (hr : r.Faithful p fuel) {id : NodeId} {elements : List NodeId}
    (helements : ∀ i ∈ elements, p.tree.isExpression i = true)
    (hs : s.At (elements.map Item.node ++ .instr (.makeArray elements.length id) :: a) stash env) :
    Follows p fuel s (Structural.expression p r id env (.arrayLiteral elements) s.store)
      (Yielded a stash env) := by
  refine (follows_values hr rfl helements hs).bind fun vs t ht => ?_
  have hlength : vs.length = elements.length := ht.1
  refine follows_last ht.2 fun u hu _ => ?_
  show Agrees ((onStash (Stash.popN elements.length) >>= _) u) _ _
  rw [← hlength, bind_of_ok (popN_eq hu.stash)]
  exact (agrees_allocate _).push ⟨hu.agenda, rfl, hu.env⟩

/-- There are as many values as keys, in the same order. -/
theorem follows_objectLiteral (hr : r.Faithful p fuel) {id : NodeId} {properties : List (Name × NodeId)}
    (hvalues : ∀ i ∈ properties.map Prod.snd, p.tree.isExpression i = true)
    (hs : s.At ((properties.map Prod.snd).map Item.node ++
      .instr (.makeObject (properties.map Prod.fst) id) :: a) stash env) :
    Follows p fuel s (Structural.expression p r id env (.objectLiteral properties) s.store)
      (Yielded a stash env) := by
  refine (follows_values hr rfl hvalues hs).bind fun vs t ht => ?_
  have hlength : (properties.map Prod.fst).length = vs.length := by
    rw [ht.1, List.length_map, List.length_map]
  refine follows_last ht.2 fun u hu _ => ?_
  show Agrees ((onStash (Stash.popN (properties.map Prod.fst).length) >>= _) u) _ _
  rw [hlength, bind_of_ok (popN_eq hu.stash)]
  exact (agrees_allocate _).push ⟨hu.agenda, rfl, hu.env⟩

/-- The items of a key end no scope. -/
theorem endsScope_key (property : MemberProperty) (a : Agenda) :
    Agenda.endsScope (keyItem p property :: a) = false := by
  cases property with
  | named name => rfl
  | computed key => rfl

theorem follows_member (hr : r.Faithful p fuel) {id object : NodeId} {property : MemberProperty}
    (hobject : p.tree.isExpression object = true)
    (hkey : ∀ i ∈ property.key?, p.tree.isExpression i = true)
    (hs : s.At (.node object :: keyItem p property :: .instr (.memberGet id) :: a) stash env) :
    Follows p fuel s (Structural.expression p r id env (.member object property) s.store)
      (Yielded a stash env) := by
  refine (hr.expression hobject hs).bind fun o t ht => ?_
  refine (follows_key hr hkey (ht.at (endsScope_key property _))).bind fun k u hu => ?_
  refine follows_last (y := get >>= fun st => Structural.orFailAt p id (memberGet st.heap o k p.checks))
    (hu.at rfl) fun x hx _ => ?_
  show Agrees ((pop >>= _) x) _ _
  rw [bind_of_ok (pop_eq hx.stash), bind_of_ok (pop_eq rfl)]
  exact (agrees_orFailAt id _).push ⟨hx.agenda, rfl, hx.env⟩

/-- Object, key and value are evaluated in this order, and only then the member is set. -/
theorem follows_memberAssignment (hr : r.Faithful p fuel) {id object value : NodeId}
    {property : MemberProperty} (hobject : p.tree.isExpression object = true)
    (hkey : ∀ i ∈ property.key?, p.tree.isExpression i = true)
    (hvalue : p.tree.isExpression value = true)
    (hs : s.At (.node object :: keyItem p property :: .node value :: .instr (.memberSet id) :: a) stash env) :
    Follows p fuel s (Structural.expression p r id env (.memberAssignment object property value) s.store)
      (Yielded a stash env) := by
  refine (hr.expression hobject hs).bind fun o t ht => ?_
  refine (follows_key hr hkey (ht.at (endsScope_key property _))).bind fun k u hu => ?_
  refine (hr.expression hvalue (hu.at rfl)).bind fun v w hw => ?_
  refine (follows_instr (hw.at rfl) fun x hx _ => ?_).less (Nat.le_succ fuel)
  show Agrees ((pop >>= _) x) _ _
  rw [bind_of_ok (pop_eq hx.stash), bind_of_ok (pop_eq rfl), bind_of_ok (pop_eq rfl)]
  refine (agrees_onHeap id _).andThen fun _ _ x' hx' => ?_
  obtain ⟨-, st, rfl⟩ := hx'
  exact ⟨(), _, rfl, rfl, follows_pure ⟨.inl hx.agenda, rfl, .inr hx.env⟩⟩

/-- Each expression that schedules items is followed as its items are. -/
theorem follows_expression (hr : r.Faithful p fuel) (ht : p.tree.WellPlaced) {id : NodeId}
    {kind : NodeKind} (hkind : p.tree.kind? id = some kind) (hexpression : kind.isStatement = false)
    (hs : s.At (.node id :: a) stash env) :
    Follows p (fuel + 1) s (Structural.expression p r id env kind { s.store with current := some id })
      (Yielded a stash env) := by
  have child : ∀ i ∈ kind.expressions, p.tree.isExpression i = true := fun i => ht.isExpression hkind
  -- Leaves are over with their step; the others schedule their items first.
  cases kind with
  | literal literal =>
    refine follows_leaf hkind hs (y := pure (literalValue literal)) fun t ht => ?_
    exact ⟨_, rfl, .inl ht.agenda, congrArg (_ :: ·) ht.stash, .inr ht.env⟩
  | identifier name =>
    exact follows_leaf hkind hs (y := Structural.expression p r id env (.identifier name))
      fun t ht => agrees_evalIdentifier id name ht
  | this =>
    refine follows_leaf hkind hs (y := Structural.expression p r id env .this) fun t ht => ?_
    obtain ⟨rfl, rfl, rfl⟩ := ht
    exact ⟨_, rfl, .inl rfl, rfl, .inr rfl⟩
  | function name params body =>
    refine follows_leaf hkind hs (y := Structural.expression p r id env (.function name params body))
      fun t ht => ?_
    obtain ⟨rfl, rfl, rfl⟩ := ht
    exact ⟨_, rfl, .inl rfl, rfl, .inr rfl⟩
  | unary op operand =>
    exact follows_schedule hkind hs rfl (g := Structural.expression p r id env (.unary op operand))
      fun t ht => follows_unary hr (child operand List.mem_cons_self) ht
  | binary op left right =>
    exact follows_schedule hkind hs rfl (g := Structural.expression p r id env (.binary op left right))
      fun t ht => follows_binary hr (child left List.mem_cons_self)
        (child right (List.mem_cons_of_mem _ List.mem_cons_self)) ht
  | logical op left right =>
    exact follows_schedule hkind hs rfl (g := Structural.expression p r id env (.logical op left right))
      fun t ht => follows_logical hr (child left List.mem_cons_self)
        (child right (List.mem_cons_of_mem _ List.mem_cons_self)) ht
  | conditional test consequent alternate =>
    exact follows_schedule hkind hs rfl
      (g := Structural.expression p r id env (.conditional test consequent alternate))
      fun t hat => follows_conditional hr ht hkind hat
  | assignment name value =>
    exact follows_schedule hkind hs rfl (g := Structural.expression p r id env (.assignment name value))
      fun t ht => follows_assignment hr (child value List.mem_cons_self) ht
  | call written args => exact follows_application hr ht hkind hs
  | arrayLiteral elements =>
    refine follows_schedule hkind hs rfl (g := Structural.expression p r id env (.arrayLiteral elements))
      fun t ht => ?_
    have hagenda := ht.agenda
    rw [List.append_assoc] at hagenda
    exact follows_arrayLiteral hr child ⟨hagenda, ht.stash, ht.env⟩
  | objectLiteral properties =>
    refine follows_schedule hkind hs rfl
      (g := Structural.expression p r id env (.objectLiteral properties)) fun t ht => ?_
    have hagenda : t.agenda = (properties.map Prod.snd).map Item.node ++
        .instr (.makeObject (properties.map Prod.fst) id) :: a := by
      rw [ht.agenda, List.append_assoc, List.map_map]
      rfl
    exact follows_objectLiteral hr child ⟨hagenda, ht.stash, ht.env⟩
  | member object property =>
    have hkey : ∀ i ∈ property.key?, p.tree.isExpression i = true := fun i hi =>
      child i (List.mem_cons_of_mem object (Option.mem_toList.mpr hi))
    exact follows_schedule hkind hs rfl (g := Structural.expression p r id env (.member object property))
      fun t ht => follows_member hr (child object List.mem_cons_self) hkey ht
  | memberAssignment object property value =>
    have hkey : ∀ i ∈ property.key?, p.tree.isExpression i = true := fun i hi =>
      child i (List.mem_cons_of_mem object (List.mem_append_left _ (Option.mem_toList.mpr hi)))
    have hvalue : p.tree.isExpression value = true :=
      child value (List.mem_cons_of_mem object (List.mem_append_right _ List.mem_cons_self))
    exact follows_schedule hkind hs rfl
      (g := Structural.expression p r id env (.memberAssignment object property value))
      fun t ht => follows_memberAssignment hr (child object List.mem_cons_self) hkey hvalue ht
  | _ => cases hexpression

/-! ## 2. Statements -/

/-- A block in its scope. -/
theorem follows_block (hr : r.Faithful p fuel) {body : List NodeId}
    (hbody : ∀ id ∈ body, p.tree.isStatement id = true) {inner : Env} {t : State}
    (h : ∃ b, Scoped env inner a b ∧ t.At (ofStatements body ++ b) stash inner) :
    Follows p fuel t (Structural.statements r inner body t.store) (Completed a stash env) := by
  obtain ⟨b, hb, hat⟩ := h
  exact (follows_statements hr hbody hat).unscoped hb

/-- A program is a block, after which there is a value in any case. -/
theorem follows_program (hr : r.Faithful p fuel) {id : NodeId} {body : List NodeId}
    (hkind : p.tree.kind? id = some (.program body))
    (hbody : ∀ i ∈ body, p.tree.isStatement i = true) (hs : s.At (.node id :: a) stash env) :
    Follows p (fuel + 1) s (Structural.block p r body "program" env { s.store with current := some id })
      (Completed a stash env) := by
  refine follows_node hkind hs fun t ht => ?_
  show Agrees ((schedule [.instr .pushUndefinedIfNeeded] >>= fun _ => evalBlock p body "program") t) _ _
  rw [schedule_bind]
  have hat : State.At { t with agenda := .instr .pushUndefinedIfNeeded :: t.agenda }
      (.instr .pushUndefinedIfNeeded :: a) stash env := ⟨congrArg (_ :: ·) ht.agenda, ht.stash, ht.env⟩
  refine (agrees_evalBlock body "program" hat).mono fun _ inner u hu => ?_
  rw [← bind_pure (Structural.statements r inner body)]
  refine (follows_block hr hbody hu).bind fun c w hw => ?_
  have hpassed : ∀ target, ∀ i ∈ [Item.instr .pushUndefinedIfNeeded], i.isPassed target = true :=
    fun target => List.forall_mem_singleton.mpr rfl
  -- A jump out of the program passes the padding by, and so does `return`.
  cases c with
  | normal v =>
    refine follows_silent (Yielded.at hw rfl) (g := pure (Completion.normal v)) (fun x hx => ?_)
      fun x (hx : x.At a (v :: stash) env) => follows_pure hx.yielded
    refine ⟨x, ?_, rfl, hx⟩
    show (get >>= fun y : State => if y.stash.isEmpty then push .undefined else pure ()) x = _
    rw [get_bind, hx.stash]
    rfl
  | broke node => exact follows_pure (hw.behind _ [] hpassed (by simp))
  | continued node => exact follows_pure (hw.behind _ [] hpassed (by simp))
  | returned v => exact follows_pure (hw.behind _ [] hpassed (by simp))

/-- A declaration gives its variable the value. -/
theorem follows_declare (hr : r.Faithful p fuel) {id init : NodeId} {name : Name}
    (hinit : p.tree.isExpression init = true)
    (hs : s.At (.node init :: .instr (.declare name id) :: a) stash env) :
    Follows p fuel s ((r.expression init env >>= fun v =>
      Structural.onName p id name (Scopes.fill env name v) >>= fun _ => pure (Completion.normal .undefined))
      s.store) (Completed a stash env) := by
  refine (hr.expression hinit hs).bind fun v u hu => ?_
  refine (follows_instr (hu.at rfl) fun w hw _ => ?_).less (Nat.le_succ fuel)
  show Agrees ((pop >>= _) w) _ _
  rw [bind_of_ok (pop_eq hw.stash), get_bind]
  have henv : w.env = env := hw.env
  dsimp only
  rw [henv]
  refine (agrees_onName id name _).andThen fun _ _ x hx => ?_
  obtain ⟨-, st, rfl⟩ := hx
  exact ⟨(), _, rfl, rfl, follows_pure ⟨.inl hw.agenda, rfl, .inr rfl⟩⟩

theorem follows_result (hr : r.Faithful p fuel) {argument : Option NodeId}
    (hargument : ∀ id ∈ argument, p.tree.isExpression id = true)
    (hs : s.At (returnItem argument :: a) stash env) :
    Follows p fuel s (Structural.result r env argument s.store) (Yielded a stash env) := by
  cases argument with
  | some id => exact hr.expression (hargument id rfl) hs
  | none =>
    refine follows_last (y := pure Value.undefined) hs fun t ht _ => ?_
    exact ⟨_, rfl, .inl ht.agenda, congrArg (_ :: ·) ht.stash, .inr ht.env⟩

/-- The rest of the function is dropped before the value is computed, or after. -/
theorem follows_return (hr : r.Faithful p fuel) {id : NodeId} {argument : Option NodeId}
    (hkind : p.tree.kind? id = some (.returnStatement argument))
    (hargument : ∀ i ∈ argument, p.tree.isExpression i = true) (hs : s.At (.node id :: a) stash env) :
    Follows p (fuel + 1) s ((Structural.result r env argument >>= fun v => pure (Completion.returned v))
      { s.store with current := some id }) (Completed a stash env) := by
  refine follows_node hkind hs (y := pure ()) (g := fun _ => Structural.result r env argument >>= fun v =>
    pure (Completion.returned v)) fun t ht => ?_
  show Agrees (evalReturn argument t) _ _
  unfold evalReturn
  rw [get_bind]
  -- In tail position the rest is dropped first, and else last.
  by_cases htail : inTailPosition t.agenda = true
  · rw [if_pos htail]
    refine ⟨(), rfl, ?_⟩
    have hat : State.At { t with agenda := returnItem argument :: unwindCall t.agenda }
        (returnItem argument :: unwindCall a) stash env :=
      ⟨congrArg (fun b => returnItem argument :: unwindCall b) ht.agenda, ht.stash, ht.env⟩
    refine (follows_result hr hargument hat).bind fun v u hu => ?_
    exact follows_pure ⟨hu.agenda, hu.stash⟩
  · rw [if_neg htail]
    refine ⟨(), rfl, ?_⟩
    have hat : State.At { t with agenda := [returnItem argument, .instr .reset] ++ t.agenda }
        (returnItem argument :: .instr .reset :: a) stash env :=
      ⟨congrArg ([returnItem argument, .instr .reset] ++ ·) ht.agenda, ht.stash, ht.env⟩
    refine (follows_result hr hargument hat).bind fun v u hu => ?_
    refine follows_silent (hu.at rfl) (g := pure (Completion.returned v)) (fun w hw => ?_)
      fun w (hw : w.At (unwindCall a) (v :: stash) env) => follows_pure ⟨.inl hw.agenda, hw.stash⟩
    exact ⟨_, rfl, rfl, congrArg unwindCall hw.agenda, hw.stash, hw.env⟩

theorem follows_if (hr : r.Faithful p fuel) (ht : p.tree.WellPlaced) {id test consequent : NodeId}
    {alternate : Option NodeId} (hkind : p.tree.kind? id = some (.ifStatement test consequent alternate))
    (hs : s.At (.node id :: a) stash env) :
    Follows p (fuel + 1) s (Structural.statement p r fuel id env (.ifStatement test consequent alternate)
      { s.store with current := some id }) (Completed a stash env) := by
  have htest : p.tree.isExpression test = true := ht.isExpression hkind List.mem_cons_self
  have hconsequent : p.tree.isStatement consequent = true := ht.isStatement hkind List.mem_cons_self
  have halternate : ∀ i ∈ alternate, p.tree.isStatement i = true := fun i hi =>
    ht.isStatement hkind (List.mem_cons_of_mem consequent (Option.mem_toList.mpr hi))
  refine follows_schedule hkind hs rfl
    (g := Structural.statement p r fuel id env (.ifStatement test consequent alternate)) fun t ht => ?_
  refine (hr.expression htest ht).bind fun v u hu => ?_
  refine (follows_ask (hu.at rfl) (fun v => v.condition "if" p.checks) (branch_if hkind) fun b w hw => ?_).less
    (Nat.le_succ fuel)
  cases b with
  | true => exact ⟨_, rfl, rfl, hr.statement hconsequent ⟨congrArg (_ :: ·) hw.agenda, hw.stash, hw.env⟩⟩
  | false =>
    cases alternate with
    | some alternate =>
      exact ⟨_, rfl, rfl, hr.statement (halternate alternate rfl)
        ⟨congrArg (_ :: ·) hw.agenda, hw.stash, hw.env⟩⟩
    | none =>
      exact ⟨_, rfl, rfl, follows_pure ⟨.inl hw.agenda, congrArg (_ :: ·) hw.stash, .inr hw.env⟩⟩

theorem follows_statement (hr : r.Faithful p fuel) (ht : p.tree.WellPlaced) {id : NodeId}
    {kind : NodeKind} (hkind : p.tree.kind? id = some kind) (hstatement : kind.isStatement = true)
    (hs : s.At (.node id :: a) stash env) :
    Follows p (fuel + 1) s (Structural.statement p r fuel id env kind { s.store with current := some id })
      (Completed a stash env) := by
  have expr : ∀ i ∈ kind.expressions, p.tree.isExpression i = true := fun i => ht.isExpression hkind
  have stmt : ∀ i ∈ kind.statements, p.tree.isStatement i = true := fun i => ht.isStatement hkind
  cases kind with
  | program body => exact follows_program hr hkind stmt hs
  | block body =>
    refine follows_node hkind hs fun t ht => ?_
    exact (agrees_evalBlock body "block" ht).mono fun _ inner u hu => follows_block hr stmt hu
  | expressionStatement e =>
    refine follows_schedule hkind hs rfl
      (g := Structural.statement p r fuel id env (.expressionStatement e)) fun t ht => ?_
    exact (hr.expression (expr e List.mem_cons_self) ht).bind fun v u hu => follows_pure hu
  | declaration declared name init =>
    exact follows_schedule hkind hs rfl
      (g := Structural.statement p r fuel id env (.declaration declared name init))
      fun t ht => follows_declare hr (expr init List.mem_cons_self) ht
  | functionDeclaration name declared =>
    exact follows_schedule hkind hs rfl
      (g := Structural.statement p r fuel id env (.functionDeclaration name declared))
      fun t ht => follows_declare hr (expr declared List.mem_cons_self) ht
  | returnStatement argument =>
    exact follows_return hr hkind (fun i hi => expr i (Option.mem_toList.mpr hi)) hs
  | ifStatement test consequent alternate => exact follows_if hr ht hkind hs
  | whileLoop test body =>
    refine follows_schedule hkind hs rfl (g := Structural.statement p r fuel id env (.whileLoop test body))
      fun t ht => ?_
    refine follows_silent ht (fun u hu => ?_) fun u hu => follows_whileTrips hr
      (expr test List.mem_cons_self) (stmt body List.mem_cons_self) fuel (Nat.le_refl fuel) hu
    exact ⟨_, rfl, rfl, hu.agenda, congrArg (Value.undefined :: ·) hu.stash, hu.env⟩
  | forLoop init test update? body =>
    have htest : ∀ i ∈ test, p.tree.isExpression i = true := fun i hi =>
      expr i (List.mem_append_left _ (Option.mem_toList.mpr hi))
    have hupdate : ∀ i ∈ update?, p.tree.isExpression i = true := fun i hi =>
      expr i (List.mem_append_right _ (Option.mem_toList.mpr hi))
    -- The head is a node of the tree, and so one or the other.
    have hinit : ∀ i ∈ init, p.tree.isStatement i = false → p.tree.isExpression i = true := by
      intro i hi hnot
      obtain ⟨kind, hkind'⟩ := p.tree.has_of_mem_children hkind
        (List.mem_append_left _ (List.mem_append_left _ (List.mem_append_left _ (Option.mem_toList.mpr hi))))
      unfold Tree.isStatement at hnot
      unfold Tree.isExpression
      rw [hkind', Option.any_some] at hnot ⊢
      rw [hnot]
      rfl
    refine follows_node hkind hs fun t ht => ?_
    refine (agrees_evalFor init ht).mono fun _ scope u hu => ?_
    obtain ⟨b, hb, hvars, hat⟩ := hu
    exact (follows_forLoop hr hinit htest hupdate (stmt body List.mem_cons_self) hvars hat).unscoped hb
  | breakStatement =>
    refine follows_schedule hkind hs rfl (g := pure (Completion.broke id)) fun t ht => ?_
    exact follows_pure ⟨⟨a, ht.agenda, rfl⟩, ht.stash, .inr ht.env⟩
  | continueStatement =>
    refine follows_schedule hkind hs rfl (g := pure (Completion.continued id)) fun t ht => ?_
    exact follows_pure ⟨⟨a, ht.agenda, rfl⟩, ht.stash, .inr ht.env⟩
  | debuggerStatement =>
    refine follows_leaf hkind hs (y := pure (Completion.normal .undefined)) fun t ht => ?_
    exact ⟨_, rfl, .inl ht.agenda, congrArg (_ :: ·) ht.stash, .inr ht.env⟩
  | _ => cases hstatement

/-- The evaluator is faithful, as far as its fuel goes. -/
theorem faithful_evaluator (ht : p.tree.WellPlaced) (fuel : Nat) :
    (Structural.evaluator p fuel).Faithful p fuel := by
  -- A node takes one unit of fuel, and its children are evaluated with the rest.
  induction fuel with
  | zero => exact ⟨fun {_ _ _ _ s} _ _ => follows_outOfFuel s.store, fun {_ _ _ _ s} _ _ => follows_outOfFuel s.store⟩
  | succ fuel ih =>
    have hbegin : ∀ {id : NodeId} {kind : NodeKind}, p.tree.kind? id = some kind →
        ∀ {β : Type} (g : NodeKind → EvalM β) (st : Store),
          (Structural.begin p id >>= g) st = g kind { st with current := some id } := by
      intro id kind hkind β g st
      unfold Structural.begin
      rw [hkind]
      rfl
    constructor
    · intro id a stash env s hid hs
      obtain ⟨kind, hkind, hnot⟩ := Tree.kind_of_isExpression hid
      show Follows p (fuel + 1) s ((Structural.begin p id >>= _) s.store) _
      rw [hbegin hkind]
      exact follows_expression ih ht hkind hnot hs
    · intro id a stash env s hid hs
      obtain ⟨kind, hkind, hstatement⟩ := Tree.kind_of_isStatement hid
      show Follows p (fuel + 1) s ((Structural.begin p id >>= _) s.store) _
      rw [hbegin hkind]
      exact follows_statement ih ht hkind hstatement hs

/-! ## 3. Programs -/

/-- A program leaves its value, and nothing else to be done. -/
theorem follows_whole (ht : p.tree.WellPlaced) (hs : s.At [.node p.tree.root] [] env) (fuel : Nat) :
    Follows p fuel s (Structural.program p fuel env s.store) fun v t => t.agenda = [] ∧ t.result = v := by
  have hroot : p.tree.isStatement p.tree.root = true := by
    obtain ⟨body, hkind⟩ := p.tree.kind?_root
    exact Tree.isStatement_of_kind hkind
  refine ((faithful_evaluator ht fuel).statement hroot hs).bind fun c t hc => ?_
  have hresult : ∀ {v : Value}, t.stash = [v] → t.result = v := fun h => by rw [State.result, h]; rfl
  -- `return` ends a program as it ends a function; a jump finds no loop.
  cases c with
  | normal v => exact follows_pure ⟨hc.agenda.eq rfl, hresult hc.stash⟩
  | returned v => exact follows_pure ⟨hc.agenda.eq rfl, hresult hc.stash⟩
  | broke node => exact follows_outside rfl hc rfl
  | continued node => exact follows_outside rfl hc rfl

/-- An evaluation that ends tells the end of the run that follows it; one without fuel left tells only that the
run is longer. -/
theorem ending_of_follows {result : EStateM.Result Stop Store Value}
    (h : Follows p fuel s result fun v t => t.agenda = [] ∧ t.result = v)
    (hescapes : ∀ k, ¬(travel p k s).Escapes) :
    (∀ e, Structural.ending p result = some e → ∃ n, (travel p n s).ending = some e) ∧
      (Structural.ending p result = none → ∃ t, travel p fuel s = .running t) := by
  replace h := h.resolve_left fun ⟨k, hk⟩ => hescapes k hk
  cases result with
  | ok v st =>
    obtain ⟨k, t, hrun, rfl, hagenda, rfl⟩ := h
    have hend : advance p t = .finished t.result t := by
      unfold advance advanceBy
      rw [hagenda]
    refine ⟨fun e he => ⟨k + 1, ?_⟩, fun he => by cases he⟩
    rw [travel, travelBy_add 1 hrun, travelBy_finished 0 hend, ← he]
    rfl
  | error stop st =>
    cases stop with
    | captured => exact h.elim
    | outOfFuel => exact ⟨fun e he => (by cases he), fun _ => h⟩
    | failed fault =>
      obtain ⟨k, t, hrun, rfl⟩ := h
      refine ⟨fun e he => ⟨k, ?_⟩, fun he => by cases he⟩
      have hlocate : locateError p t fault = t.calls.attachBacktrace (Structural.located p t.store fault) := rfl
      rw [hrun, Progress.ending, hlocate, attachBacktrace_fault, (attachBacktrace_place _ _).1,
        (attachBacktrace_place _ _).2, ← he]
      rfl

/-- A run that comes to no limit and captures no continuation ends as the structural evaluator says. -/
theorem travel_ending_iff (ht : p.tree.WellPlaced) (hs : s.At [.node p.tree.root] [] env)
    (hescapes : ∀ k, ¬(travel p k s).Escapes) (e : Ending) :
    (∃ n, (travel p n s).ending = some e) ↔
      ∃ fuel, Structural.ending p (Structural.program p fuel env s.store) = some e := by
  have follows := fun fuel => ending_of_follows (follows_whole ht hs fuel) hescapes
  constructor
  · rintro ⟨n, hn⟩
    refine ⟨n, ?_⟩
    cases hend : Structural.ending p (Structural.program p n env s.store) with
    | some e' =>
      obtain ⟨m, hm⟩ := (follows n).1 e' hend
      rw [ending_unique hm hn]
    | none =>
      -- Without an end the evaluation would need more steps than the run takes.
      obtain ⟨t, hrun⟩ := (follows n).2 hend
      exact absurd hrun (ne_running_of_ending hn t)
  · rintro ⟨fuel, hfuel⟩
    exact (follows fuel).1 e hfuel

variable {σ : Type} (t : Tree) (config : Config) (hosts : List EmbeddedFunction) (output : Output)
  (clock : Nat → Nat) (rule : PauseRule σ) (memory : σ)

/-- The machine ends a well-placed program as the structural evaluator does, with the same value and output or
the same error at the same place, if it comes to no limit and no continuation is captured. -/
theorem refines_structural (ht : t.WellPlaced)
    (hlimit : ∀ n, ((build t config hosts output clock rule memory).runThrough n).progress.isLimited = false)
    (hcapture : ∀ n,
      ((build t config hosts output clock rule memory).runThrough n).progress.state.snapshots = #[])
    (ending : Ending) :
    (∃ n, ((build t config hosts output clock rule memory).runThrough n).progress.ending = some ending) ↔
      ∃ fuel, Structural.ending (build t config hosts output clock rule memory).setting
        (Structural.program (build t config hosts output clock rule memory).setting fuel
          (build t config hosts output clock rule memory).state.env
          (build t config hosts output clock rule memory).state.store) = some ending := by
  have htravel := (forall_progress_iff _ fun progress => progress.isLimited = false).mp hlimit
  have hsnapshots := (forall_progress_iff _ fun progress => progress.state.snapshots = #[]).mp hcapture
  have hescapes : ∀ k, ¬(travel (build t config hosts output clock rule memory).setting k
      (build t config hosts output clock rule memory).state).Escapes := by
    rintro k (hlimited | hcaptured)
    · exact absurd hlimited (by rw [htravel k]; decide)
    · exact hcaptured (hsnapshots k)
  exact (exists_progress_iff _ fun progress => progress.ending = some ending).trans
    (travel_ending_iff ht ⟨rfl, rfl, rfl⟩ hescapes ending)

theorem refines_structural_sample :
    (∃ n, ((build .sample .standard [] default (fun _ => 0) .never ()).runThrough n).progress.ending =
        some (.finished (.bool true) .empty default)) ↔
      ∃ fuel, Structural.ending (build .sample .standard [] default (fun _ => 0) .never ()).setting
        (Structural.program (build .sample .standard [] default (fun _ => 0) .never ()).setting fuel
          (build .sample .standard [] default (fun _ => 0) .never ()).state.env
          (build .sample .standard [] default (fun _ => 0) .never ()).state.store) =
        some (.finished (.bool true) .empty default) := by
  have ends : (travel (build .sample .standard [] default (fun _ => 0) .never ()).setting 10
      (build .sample .standard [] default (fun _ => 0) .never ()).state).isFinished = true := by
    decide +kernel
  have early : ∀ k : Fin 11, (travel (build .sample .standard [] default (fun _ => 0) .never ()).setting k
      (build .sample .standard [] default (fun _ => 0) .never ()).state).state.snapshots.isEmpty = true := by
    decide +kernel
  refine refines_structural .sample .standard [] default (fun _ => 0) .never () Tree.sample_wellPlaced
    ?_ ?_ _
  · refine (forall_progress_iff _ fun progress => progress.isLimited = false).mpr fun k => ?_
    exact not_limited_of_finished ends k
  · refine (forall_progress_iff _ fun progress => progress.state.snapshots = #[]).mpr fun k => ?_
    obtain ⟨j, hj, heq⟩ := exists_le_of_finished ends k
    rw [travel, heq]
    exact Array.isEmpty_iff.mp (early ⟨j, Nat.lt_succ_of_le hj⟩)

end ExplicitControl.Machine
