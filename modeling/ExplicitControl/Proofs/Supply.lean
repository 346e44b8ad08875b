import ExplicitControl.Proofs.PendingWork

/-!
# The stash always holds enough for the pending work

A state is supplied if the stash is as high as the agenda asks for, and every snapshot is but for the one value
that invoking it brings.  What an item puts in front asks for no more than the item itself has asked for, less the
values taken; calls and jumps go on from a height at which one more value is enough.  So no step runs out of values.
-/

namespace ExplicitControl

/-- Invoking a snapshot of the state with one value gives its pending work enough. -/
def State.KeptSupplied (s : State) : Prop :=
  ∀ k ∈ s.snapshots, k.agenda.demand.need ≤ k.stash.length + 1

/-- The stash is high enough for the pending work, now and after invoking any snapshot. -/
structure State.Supplied (s : State) : Prop where
  now : s.agenda.demand.need ≤ s.stash.length
  kept : s.KeptSupplied

theorem State.KeptSupplied.of_eq {s s' : State} (h : s.KeptSupplied) (heq : s'.snapshots = s.snapshots) :
    s'.KeptSupplied := by
  rw [KeptSupplied, heq]
  exact h

/-- A snapshot taken where one more value is enough is itself supplied. -/
theorem State.KeptSupplied.captured {s : State} (h : s.KeptSupplied)
    (hs : s.agenda.demand.resume ≤ s.stash.length) : s.captured.KeptSupplied := by
  intro k hk
  obtain hk | rfl := Array.mem_push.mp hk
  · exact h k hk
  · rw [Demand.resume] at hs
    show s.agenda.demand.need ≤ s.stash.length + 1
    omega

theorem Demand.need_le (d : Demand) : d.need ≤ d.resume + 1 := by
  rw [resume]
  omega

namespace Machine

open Agenda

variable {p : Setting} {a : Agenda}

/-! ## 1. What is put in front asks for no more than the item -/

theorem demand_loopTest (test : Option NodeId) (a : Agenda) :
    (demand (loopTest test :: a)).need ≤ (demand a).resume ∧
      (demand (loopTest test :: a)).floor = (demand a).floor := by
  cases test with
  | none => exact ⟨Nat.le_trans (Nat.le_of_eq (Nat.zero_add _)) (Nat.le_max_left _ _), rfl⟩
  | some id => exact ⟨Nat.le_refl _, rfl⟩

/-- A node whose value is dropped, or none, asks for no more than what comes after it and the floor. -/
theorem demand_dropped (node : Option NodeId) (a : Agenda) :
    (demand ((node.map fun id => [Item.node id, .instr .pop]).getD [] ++ a)).need ≤
        max (demand a).need (demand a).floor ∧
      (demand ((node.map fun id => [Item.node id, .instr .pop]).getD [] ++ a)).floor =
        (demand a).floor := by
  cases node with
  | none => exact ⟨Nat.le_max_left _ _, rfl⟩
  | some id =>
    refine ⟨?_, rfl⟩
    simp only [Option.map_some, Option.getD_some, List.cons_append, List.nil_append, demand_cons,
      Item.demand, Instr.need, Instr.takes, Instr.gives, Demand.resume]
    omega

theorem demand_callItems (id callee : NodeId) (args : List NodeId) (a : Agenda) :
    (demand (callItems p id callee args ++ a)).need ≤ (demand a).resume := by
  -- The arguments leave their values above the callee, and the receiver if there is one.
  have hargs := fun hasReceiver => demand_nodes args (.instr (.apply args.length hasReceiver id) :: a)
  unfold callItems
  split
  all_goals
    simp only [demand_cons, Item.demand, Instr.need, Instr.takes, Instr.gives, Demand.resume,
      List.cons_append, List.append_assoc, List.nil_append] at hargs ⊢
  · have := hargs true
    simp only [Bool.toNat_true] at this
    omega
  · have := hargs true
    simp only [Bool.toNat_true] at this
    omega
  · have := hargs false
    simp only [Bool.toNat_false] at this
    omega

theorem demand_forItems (id : NodeId) (init test update : Option NodeId) (body : NodeId) (vars : List Name)
    (a : Agenda) : (demand (forItems id init test update body vars ++ a)).need ≤ (demand a).resume := by
  let tested : Agenda := .instr (.forTest test update body vars id) :: .instr (.marker .loopEnd) :: a
  have htest := demand_loopTest test tested
  have hinit := demand_dropped init
    (.instr (.freshTrip vars) :: .instr (.push .undefined) :: loopTest test :: tested)
  rw [forItems, List.append_assoc]
  refine Nat.le_trans hinit.1 ?_
  simp only [tested, demand_cons, Item.demand, Instr.need, Instr.takes, Instr.gives, Demand.resume] at htest ⊢
  omega

/-- A node leaves one value or jumps with one, whatever is pending. -/
theorem demand_kindItems (id : NodeId) (kind : NodeKind) (a : Agenda) :
    (demand (kindItems p id kind ++ a)).need ≤ (demand a).resume + if kindItems p id kind = [] then 1 else 0 := by
  suffices h : kindItems p id kind ≠ [] → (demand (kindItems p id kind ++ a)).need ≤ (demand a).resume by
    split
    next hitems =>
      rw [hitems]
      exact Demand.need_le _
    next hitems => exact h hitems
  intro hitems
  cases kind with
  | program body => exact (demand_ofStatements body a).1
  | block body => exact (demand_ofStatements body a).1
  | forLoop init test update body => exact demand_forItems id init test update body _ a
  | call callee args => exact demand_callItems id callee args a
  | arrayLiteral elements =>
    have := (demand_nodes elements (.instr (.makeArray elements.length id) :: a)).1
    simp only [kindItems, demand_cons, Item.demand, Instr.need, Instr.takes, Instr.gives, Demand.resume,
      List.append_assoc, List.cons_append, List.nil_append] at this ⊢
    omega
  | objectLiteral properties =>
    have := (demand_nodes (properties.map Prod.snd)
      (.instr (.makeObject (properties.map Prod.fst) id) :: a)).1
    simp only [List.map_map, Function.comp_def, List.length_map] at this
    simp only [kindItems, demand_cons, Item.demand, Instr.need, Instr.takes, Instr.gives, Demand.resume,
      List.length_map, List.append_assoc, List.cons_append, List.nil_append] at this ⊢
    omega
  | member object property =>
    cases property <;>
      simp only [kindItems, keyItem, List.cons_append, List.nil_append, demand_cons, Item.demand, Instr.need,
        Instr.takes, Instr.gives, Demand.resume] <;> omega
  | memberAssignment object property value =>
    cases property <;>
      simp only [kindItems, keyItem, List.cons_append, List.nil_append, demand_cons, Item.demand, Instr.need,
        Instr.takes, Instr.gives, Demand.resume] <;> omega
  | returnStatement | debuggerStatement | literal | identifier | this | function => exact absurd rfl hitems
  | _ =>
    simp only [kindItems, List.cons_append, List.nil_append, demand_cons, Item.demand, Instr.need,
      Instr.takes, Instr.gives, Demand.resume]
    omega

/-- What a program puts behind its statements asks for nothing. -/
theorem demand_padding (kind : NodeKind) (a : Agenda) : demand (kind.padding ++ a) = demand a := by
  cases kind with
  | program body =>
    simp only [NodeKind.padding, List.singleton_append, demand_cons, Item.demand, Instr.need, Instr.takes,
      Instr.gives, Nat.zero_add, Nat.sub_zero]
  | _ => rfl

theorem demand_opening (env : Env) (a : Agenda) : demand (a.opening env) = demand a := by
  obtain h | h := opening_cases env a <;> rw [h]
  exact demand_restore env false a

theorem demand_closing (env : Env) (a : Agenda) : demand (a.closing env) = demand a := by
  obtain ⟨-, -, hclosing⟩ | ⟨env', closesCall, rest, rfl, -, hclosing⟩ := closing_cases env a
  · rw [hclosing, demand_restore]
  · rw [hclosing, demand_restore, demand_restore]

theorem demand_returnItem (argument : Option NodeId) (a : Agenda) :
    (demand (returnItem argument :: a)).need ≤ (demand a).resume := by
  cases argument with
  | none => exact Nat.le_trans (Nat.le_of_eq (Nat.zero_add _)) (Nat.le_max_left _ _)
  | some id => exact Nat.le_refl _

/-- In tail position a return drops the rest of its call at once, and else the item behind its value does. -/
theorem demand_returned (argument : Option NodeId) (a : Agenda) :
    (demand (if a.inTailPosition then returnItem argument :: unwindCall a
      else returnItem argument :: .instr .reset :: a)).need ≤ (demand a).resume := by
  split
  · refine Nat.le_trans (demand_returnItem argument _) ?_
    have := demand_unwindCall a
    simp only [Demand.resume]
    omega
  · refine Nat.le_trans (demand_returnItem argument (.instr .reset :: a)) ?_
    simp only [demand_cons, Item.demand, Instr.need, Demand.resume]
    omega

theorem need_of_target {i : Instr} {target : Marker} (h : i.target? = some target) (d : Demand) :
    i.need d = d.floor := by
  cases i <;> first | rfl | cases h

/-- A jump that is stopped by a scope goes on behind it, and asks for no more than before. -/
theorem demand_stopped {i : Instr} {target : Marker} {item : Item} {rest : Agenda} (htarget : i.target? = some target)
    (hsearch : searchLoop target a = .scope item rest) :
    (demand (item :: .instr i :: rest)).need ≤ i.need (demand a) := by
  obtain ⟨-, env, closesCall, -, rfl, -⟩ := eq_of_searchLoop_scope hsearch
  have hagain : (demand (.instr i :: rest)).need = (demand rest).floor := by
    cases i <;> first | rfl | cases htarget
  rw [demand_restore, hagain, need_of_target htarget]
  exact floor_of_searchLoop_scope hsearch

theorem demand_bodyItems (code : FunctionBody) (a : Agenda) :
    (demand (bodyItems code ++ a)).need ≤ (demand a).resume := by
  cases code with
  | expression expr => exact Nat.le_refl _
  | block statements =>
    rw [bodyItems, List.append_assoc]
    refine Nat.le_trans (demand_ofStatements statements _).1 ?_
    simp only [List.cons_append, List.nil_append, demand_cons, Item.demand, Instr.need, Instr.takes,
      Instr.gives, Demand.resume]
    omega

/-- The values that an instruction takes, and those that the items ask for which it puts in front, are no more than
it asks for, but for those that it leaves itself. -/
theorem demand_offers {i : Instr} {items : List Item} (hplain : isPlainInstr i = true) (hitems : items ∈ i.offers)
    (a : Agenda) :
    (demand (items ++ a)).need + i.pops ≤ i.need (demand a) + if items = [] then i.pushes else 0 := by
  have hneed := Demand.need_le (demand a)
  cases i with
  | logical op right node =>
    simp only [Instr.offers, List.mem_cons, List.not_mem_nil, or_false] at hitems
    obtain rfl | rfl := hitems
    · exact Nat.succ_le_succ hneed
    · exact Nat.le_refl _
  | branch consequent alternate node =>
    simp only [Instr.offers, List.mem_cons, List.not_mem_nil, or_false] at hitems
    obtain rfl | rfl := hitems
    · exact Nat.le_refl _
    · cases alternate with
      | none => exact Nat.succ_le_succ hneed
      | some id => exact Nat.le_refl _
  | whileTest test body node =>
    simp only [Instr.offers, List.mem_cons, List.not_mem_nil, or_false] at hitems
    obtain rfl | rfl := hitems
    · exact Nat.succ_le_succ hneed
    · simp only [List.cons_append, List.nil_append, demand_cons, Item.demand, Instr.need, Instr.takes,
        Instr.gives, Instr.pops, Demand.resume]
      omega
  | forTest test update body vars node =>
    simp only [Instr.offers, List.mem_cons, List.not_mem_nil, or_false] at hitems
    obtain rfl | rfl := hitems
    · exact Nat.succ_le_succ hneed
    · have htest := demand_loopTest test (.instr (.forTest test update body vars node) :: a)
      have hupdate := demand_dropped update
        (loopTest test :: .instr (.forTest test update body vars node) :: a)
      simp only [tripItems, List.append_assoc, List.cons_append, List.nil_append, demand_cons, Item.demand,
        Instr.need, Instr.takes, Instr.gives, Instr.pops, Demand.resume] at htest hupdate ⊢
      omega
  | pushUndefinedIfNeeded =>
    obtain rfl := List.mem_singleton.mp hitems
    show (demand a).need + 1 ≤ 0 + ((demand a).need - 0) + 1
    omega
  | assign | declare | restore | reset | breakLoop | continueLoop | apply => cases hplain
  | _ =>
    obtain rfl := List.mem_singleton.mp hitems
    simp only [Instr.pops, Instr.pushes, Instr.need, if_true, List.nil_append]
    omega

/-! ## 2. Steps -/

variable {s s' : State}

/-- An instruction pops no more values than it asks for, but for the one that looks whether there are any. -/
theorem pops_le_need (i : Instr) (d : Demand) : i.pops ≤ i.need d ∨ i = .pushUndefinedIfNeeded := by
  cases i with
  | pushUndefinedIfNeeded => exact .inr rfl
  | _ =>
    left
    simp only [Instr.pops, Instr.need, Instr.takes]
    omega

/-- What an instruction puts in front finds its values on the stash that the instruction leaves. -/
theorem need_offers {i : Instr} {items : List Item} {stash stash' : Stash} (hplain : isPlainInstr i = true)
    (hoffered : items ∈ i.offers) (hneed : i.need (demand a) ≤ stash.length)
    (hstash : i.pops ≤ stash.length → Stash.Exchanged i.pops (if items = [] then i.pushes else 0) stash stash') :
    (demand (items ++ a)).need ≤ stash'.length := by
  have hitems := demand_offers hplain hoffered a
  by_cases hpops : i.pops ≤ stash.length
  · have hlength := (hstash hpops).length hpops
    omega
  · obtain hle | rfl := pops_le_need i (demand a)
    · exact absurd (Nat.le_trans hle hneed) hpops
    · -- Where there are no values, none are asked for.
      obtain rfl := List.mem_singleton.mp hoffered
      have hneed : 0 + ((demand a).need - 0) ≤ stash.length := hneed
      have hempty : ¬1 ≤ stash.length := hpops
      show (demand a).need ≤ _
      omega

theorem length_operands (args : List Value) (callee : Value) (receiver : Option Value) (stash : Stash) :
    (args.reverse ++ callee :: (receiver.toList ++ stash)).length =
      stash.length + (args.length + 1 + receiver.isSome.toNat) := by
  rw [List.length_append, List.length_reverse, List.length_cons, List.length_append, Option.length_toList]
  cases receiver <;> simp <;> omega

/-- A call goes on with one more value. -/
theorem Call.supplied {callee : Value} {args : List Value} (h : Call p s s' callee args)
    (hs : (demand s.agenda).resume ≤ s.stash.length) (hkept : s.KeptSupplied) : s'.Supplied := by
  cases h with
  | @enter identity f fname params code frame name node receiver hclosure hkind harity hagenda hstash hcalls
      hsnapshots =>
    refine ⟨?_, hkept.of_eq hsnapshots⟩
    rw [hagenda, hstash]
    refine Nat.le_trans (demand_bodyItems code _) ?_
    rwa [demand_closing]
  | answer hagenda hstash hstill =>
    refine ⟨?_, hkept.of_eq hstill.snapshots⟩
    rw [hagenda, hstash]
    exact Nat.le_trans (Demand.need_le _) (Nat.succ_le_succ hs)
  | @invoke k kept hcontinuation harity hfound hregisters hscopes hsnapshots =>
    -- The pending work of a snapshot goes on with the argument as the one more value.
    refine ⟨?_, hkept.of_eq hsnapshots⟩
    rw [show s'.agenda = _ from congrArg Snapshot.agenda hregisters,
      show s'.stash = _ from congrArg Snapshot.stash hregisters]
    exact hkept kept (Array.mem_of_getElem? hfound)

/-- A step from a supplied state leads to a supplied state. -/
theorem Move.supplied {item : Item} (h : Move p s s' item)
    (hneed : (item.demand (demand s.agenda)).need ≤ s.stash.length) (hkept : s.KeptSupplied) : s'.Supplied := by
  -- For an instruction the need is what `Instr.need` says, also for a marker.
  have instr : ∀ {i : Instr}, item = .instr i → i.need (demand s.agenda) ≤ s.stash.length := by
    rintro i rfl
    cases i <;> exact hneed
  have operands : ∀ {args : List Value} {callee : Value} {receiver : Option Value} {stash : Stash} {node : NodeId},
      item = .instr (.apply args.length receiver.isSome node) →
      s.stash = args.reverse ++ callee :: (receiver.toList ++ stash) → (demand s.agenda).resume ≤ stash.length := by
    rintro args callee receiver stash node hitem hoperands
    have hle := instr hitem
    rw [hoperands, length_operands] at hle
    exact Nat.le_of_add_le_add_right hle
  cases h with
  | @plain id kind hkind hopened hgoes hagenda hstill hstash =>
    refine ⟨?_, hkept.of_eq hstill.snapshots⟩
    have hlength := hstash.length (Nat.zero_le _)
    have hitems := demand_kindItems (p := p) id kind (kind.padding ++ s.agenda)
    rw [demand_padding] at hitems
    have hneed : (demand s.agenda).resume ≤ s.stash.length := hneed
    rw [hagenda]
    omega
  | @scope id kind name hkind hopened hagenda hcalls hsnapshots hmade hnames hstash =>
    refine ⟨?_, hkept.of_eq hsnapshots⟩
    have hitems := demand_kindItems (p := p) id kind (opening s.env (kind.padding ++ s.agenda))
    rw [if_neg (kindItems_ne_nil hopened), demand_opening, demand_padding] at hitems
    rw [hagenda, hstash]
    exact Nat.le_trans hitems hneed
  | @returned id argument hkind hagenda hstash hstill =>
    refine ⟨?_, hkept.of_eq hstill.snapshots⟩
    rw [hagenda, hstash]
    exact Nat.le_trans (demand_returned argument s.agenda) hneed
  | @instr i items hplain hoffered hagenda hstill hstash =>
    refine ⟨?_, hkept.of_eq hstill.snapshots⟩
    rw [hagenda]
    exact need_offers hplain hoffered (instr rfl) hstash
  | assign howner hslot hvalue hmutability hagenda henv hcalls hsnapshots hscopes hnext hstash hkeeps =>
    refine ⟨?_, hkept.of_eq hsnapshots⟩
    have hneed : 1 + ((demand s.agenda).need - 1) ≤ s.stash.length := hneed
    rw [hagenda, hkeeps]
    omega
  | declare howner hagenda henv hcalls hsnapshots hscopes hnext hstash hleaves =>
    refine ⟨?_, hkept.of_eq hsnapshots⟩
    have hneed : 1 + ((demand s.agenda).need - 1) ≤ s.stash.length := hneed
    rw [hstash, List.length_cons] at hneed
    rw [hagenda, hleaves, List.length_cons]
    omega
  | freshTrip hvars hagenda hcalls hsnapshots hmade hstash =>
    refine ⟨?_, hkept.of_eq hsnapshots⟩
    have hneed : 0 + ((demand s.agenda).need - 0) ≤ s.stash.length := hneed
    rw [hagenda, hstash]
    omega
  | restore hagenda hstash henv hcalls hscopes hsnapshots =>
    refine ⟨?_, hkept.of_eq hsnapshots⟩
    have hneed : 0 + ((demand s.agenda).need - 0) ≤ s.stash.length := hneed
    rw [hagenda, hstash]
    omega
  | reset hagenda hstash hstill =>
    refine ⟨?_, hkept.of_eq hstill.snapshots⟩
    rw [hagenda, hstash]
    exact Nat.le_trans (demand_unwindCall s.agenda).1 hneed
  | @reached i target rest htarget hsearch hagenda hstash hstill =>
    -- What a jump drops asks for nothing; behind the marker the floor and one more value are enough.
    refine ⟨?_, hkept.of_eq hstill.snapshots⟩
    have hfloor := instr rfl
    rw [need_of_target htarget] at hfloor
    rw [hagenda, hstash]
    exact Nat.le_trans (demand_of_searchLoop_reached hsearch).1 (Nat.succ_le_succ hfloor)
  | stopped htarget hsearch hagenda hstash hstill =>
    refine ⟨?_, hkept.of_eq hstill.snapshots⟩
    rw [hagenda, hstash]
    exact Nat.le_trans (demand_stopped htarget hsearch) (instr rfl)
  | call hoperands houtcome => exact houtcome.supplied (operands rfl hoperands) hkept
  | @callCc callee receiver stash node hoperands houtcome =>
    have hs := operands rfl (show s.stash = [callee].reverse ++ _ from hoperands)
    exact houtcome.supplied hs (State.KeptSupplied.captured (s := { s with stash }) hkept hs)
  | @callCcTwice receiver stash node hoperands houtcome =>
    have hs := operands rfl (show s.stash = [Value.callCc].reverse ++ _ from hoperands)
    have hkept' := State.KeptSupplied.captured (s := { s with stash }) hkept hs
    exact houtcome.supplied hs (hkept'.captured hs)

theorem supplied_execute (hp : p.PreludeOnly) {item : Item} {rest : Agenda} (hs : s.Supplied)
    (hagenda : s.agenda = item :: rest) :
    Ensures (execute p item) { s with agenda := rest } (fun _ s' => s'.Supplied) fun e _ => NotUnderflow e := by
  have hneed := hs.now
  rw [hagenda, demand_cons] at hneed
  have hmove := (move_execute (p := p) item { s with agenda := rest }).mono
    (fun _ _ h => h.supplied hneed hs.kept) fun _ _ h => h hp
  by_cases hpops : item.pops ≤ s.stash.length
  · exact hmove.mono (fun _ _ h => h) fun _ _ h => h hpops
  · cases item with
    | node id => exact absurd (Nat.zero_le _) hpops
    | instr i =>
      have hneed : i.need (demand rest) ≤ s.stash.length := by cases i <;> exact hneed
      obtain hle | rfl := pops_le_need i (demand rest)
      · exact absurd (Nat.le_trans hle hneed) hpops
      · -- The instruction that looks whether there are values only fails at a limit.
        have hlimited : Ensures (execute p (.instr .pushUndefinedIfNeeded)) { s with agenda := rest }
            (fun _ _ => True) fun e _ => NotUnderflow e := by
          unfold execute
          rw [ensures_bind]
          refine ensures_tick (fun steps readings => ?_) fun _ _ _ => notUnderflow_of_regular rfl
          unfold execInstr
          rw [ensures_bind, ensures_get]
          split <;> trivial
        exact (hlimited.and hmove).mono (fun _ _ h => h.2) fun _ _ h => h

end Machine

end ExplicitControl
