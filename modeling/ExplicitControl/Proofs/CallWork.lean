import ExplicitControl.Proofs.CallDepth
import ExplicitControl.Proofs.Heights

/-!
# Work inside of a call, and in front of nothing

A call is told from its end: the item that closes it, with all the work behind, and the stash and the calls
beneath.  As long as no continuation is invoked, whatever is done inside of the call keeps these as they are,
and the stash has exactly the values that the work in front of the end goes on with.

Work in front of any other takes what values it needs from those that it has put on the stash itself, and leaves one.
How many it goes on with at each moment is known from the work alone: it is counted like the body of a function, as
if a call marker came behind it.
-/

namespace ExplicitControl

/-- The work `a` is pending in front of `b`, and the stash has the values that it goes on with above `base`. -/
structure State.Holds (t : Tree) (b : Agenda) (base : Stash) (a : Agenda) (n : Nat) (s : State) : Prop where
  agenda : s.agenda = a ++ b
  expects : a.Expects t n
  values : s.Over base n

def Agenda.IsEnd (b : Agenda) : Prop :=
  ∃ env rest, b = .instr (.restore env true) :: rest

namespace Machine

open Agenda

variable {p : Setting} {t : Tree} {n : Nat} {a b c : Agenda}

/-! ## 1. What is put in front goes on with as many values -/

/-- A node that is evaluated next; if it is a statement, it may jump. -/
theorem expects_node (id : NodeId) {a : Agenda} {n : Nat} (ha : a.Expects t (n + 1))
    (hlevel : t.isStatement id = true → a.Level (n + 1)) : Expects t (.node id :: a) n :=
  ha.put fun h => ⟨hlevel h, List.forall_mem_nil _⟩

theorem expects_loopTest {test : Option NodeId} (htest : ∀ id ∈ test, t.isStatement id = false) {a : Agenda}
    {n : Nat} (ha : a.Expects t (n + 1)) : Expects t (loopTest test :: a) n := by
  cases test with
  | none => exact ha.cons rfl
  | some id => exact ha.cons (htest id rfl)

theorem not_isStop_loopTest (test : Option NodeId) : (loopTest test).isStop = false := by
  cases test <;> rfl

/-- A node whose value is dropped, or none. -/
theorem expects_dropped (node : Option NodeId) {a : Agenda} {n : Nat} (ha : a.Expects t n)
    (hnode : ∀ id ∈ node, t.isStatement id = true → a.Level (n + 1)) :
    Expects t ((node.map fun id => [Item.node id, .instr .pop]).getD [] ++ a) n := by
  cases node with
  | none => exact ha
  | some id =>
    have hpop : Expects t (.instr .pop :: a) (n + 1) := ha.cons rfl
    exact hpop.put fun h => ⟨(hnode id rfl h).pass rfl, List.forall_mem_nil _⟩

theorem expects_keyItem {property : MemberProperty} (hkey : ∀ id ∈ property.key?, p.tree.isStatement id = false)
    {a : Agenda} {n : Nat} (ha : a.Expects p.tree (n + 1)) : Expects p.tree (keyItem p property :: a) n := by
  cases property with
  | named name => exact ha.cons rfl
  | computed id => exact ha.cons (hkey id rfl)

/-- An expression, and an instruction that makes one value of its value. -/
theorem expects_operand {operand : NodeId} {i : Instr} (hoperand : t.isStatement operand = false)
    (hinput : i.input = 1) (houtput : i.output = 1) (hwork : i.isStatementWork t = false) (ha : a.Expects t (n + 1)) :
    Expects t (.node operand :: .instr i :: a) n := by
  have hbehind : a.Expects t (n + i.output) := by
    rw [houtput]
    exact ha
  have hi : Expects t (.instr i :: a) (n + i.input) := hbehind.cons hwork
  rw [hinput] at hi
  exact hi.cons hoperand

theorem expects_callItems (ht : p.tree.WellPlaced) {id callee : NodeId} {args : List NodeId}
    (hkind : p.tree.kind? id = some (.call callee args)) (ha : a.Expects p.tree (n + 1)) :
    Expects p.tree (callItems p id callee args ++ a) n := by
  have child : ∀ i ∈ callee :: args, p.tree.isStatement i = false := fun i hi => ht.expression hkind hi
  -- The arguments provide what the application takes above the callee, and the receiver if there is one.
  have applied : ∀ hasReceiver : Bool,
      Expects p.tree (args.map Item.node ++ .instr (.apply args.length hasReceiver id) :: a)
        (n + 1 + hasReceiver.toNat) := by
    intro hasReceiver
    refine Expects.expressions ?_ fun i hi => child i (List.mem_cons_of_mem _ hi)
    have happly : Expects p.tree (.instr (.apply args.length hasReceiver id) :: a)
        (n + (args.length + 1 + hasReceiver.toNat)) := ha.cons rfl
    rwa [show n + 1 + hasReceiver.toNat + args.length = n + (args.length + 1 + hasReceiver.toNat) by omega]
  unfold callItems
  split
  next object name hcallee =>
    have hlookup : Expects p.tree (.instr (.methodLookup (some name) callee) ::
        (args.map Item.node ++ .instr (.apply args.length true id) :: a)) (n + 1) := (applied true).cons rfl
    rw [List.cons_append, List.cons_append, List.append_assoc]
    exact hlookup.cons (ht.expression hcallee List.mem_cons_self)
  next object key hcallee =>
    have hlookup : Expects p.tree (.instr (.methodLookup none callee) ::
        (args.map Item.node ++ .instr (.apply args.length true id) :: a)) (n + 2) := (applied true).cons rfl
    have hkey : Expects p.tree (.node key :: .instr (.methodLookup none callee) ::
        (args.map Item.node ++ .instr (.apply args.length true id) :: a)) (n + 1) :=
      hlookup.cons (ht.expression hcallee (List.mem_cons_of_mem _ List.mem_cons_self))
    rw [List.cons_append, List.cons_append, List.cons_append, List.append_assoc]
    exact hkey.cons (ht.expression hcallee List.mem_cons_self)
  next =>
    rw [List.cons_append, List.append_assoc]
    exact (applied false).cons (child callee List.mem_cons_self)

/-- The items of a loop go on at the height of the loop, and so does the work behind it. -/
theorem expects_forItems {id : NodeId} {init test update : Option NodeId} {body : NodeId} {vars : List Name}
    (htests : ∀ i ∈ test.toList ++ update.toList, t.isStatement i = false) (ha : a.Expects t (n + 1))
    (hlevel : a.Level (n + 1)) : Expects t (forItems id init test update body vars ++ a) n := by
  -- From the end of the loop to its head.
  have hend : Level (n + 1) (.instr (.marker .loopEnd) :: a) := hlevel.halt ha.height _
  have hloop : Expects t (.instr (.marker .loopEnd) :: a) (n + 1) := ha.cons rfl
  have hagain : Expects t (.instr (.forTest test update body vars id) :: .instr (.marker .loopEnd) :: a) (n + 2) :=
    hloop.put fun _ => ⟨hend, htests⟩
  have htest := expects_loopTest
    (fun i hi => htests i (List.mem_append_left _ (Option.mem_toList.mpr hi))) hagain
  have hpush : Expects t (.instr (.push .undefined) :: loopTest test ::
      .instr (.forTest test update body vars id) :: .instr (.marker .loopEnd) :: a) n := htest.cons rfl
  have hfresh : Expects t (.instr (.freshTrip vars) :: .instr (.push .undefined) :: loopTest test ::
      .instr (.forTest test update body vars id) :: .instr (.marker .loopEnd) :: a) n := hpush.cons rfl
  rw [forItems, List.append_assoc]
  refine expects_dropped init hfresh fun _ _ _ => ?_
  exact (((hend.pass rfl).pass (not_isStop_loopTest test)).pass rfl).pass rfl

/-- What a node puts in front leaves one value or jumps with one. -/
theorem expects_kindItems (ht : p.tree.WellPlaced) {id : NodeId} {kind : NodeKind}
    (hkind : p.tree.kind? id = some kind) (hitems : kindItems p id kind ≠ []) (ha : a.Expects p.tree (n + 1))
    (hlevel : kind.isStatement = true → a.Level (n + 1)) : Expects p.tree (kindItems p id kind ++ a) n := by
  have child : ∀ i ∈ kind.expressions, p.tree.isStatement i = false := fun i hi => ht.expression hkind hi
  cases kind with
  | program body => exact ha.ofStatements body (hlevel rfl)
  | block body => exact ha.ofStatements body (hlevel rfl)
  | returnStatement argument => exact absurd rfl hitems
  | forLoop init test update body => exact expects_forItems child ha (hlevel rfl)
  | call callee args => exact expects_callItems ht hkind ha
  | expressionStatement expr => exact ha.cons (child expr List.mem_cons_self)
  | declaration kind name init => exact expects_operand (child init List.mem_cons_self) rfl rfl rfl ha
  | functionDeclaration name declared => exact expects_operand (child declared List.mem_cons_self) rfl rfl rfl ha
  | ifStatement test consequent alternate =>
    have hbranch : Expects p.tree (.instr (.branch consequent alternate id) :: a) (n + 1) :=
      ha.jump (hlevel rfl) rfl
    exact hbranch.cons (child test List.mem_cons_self)
  | whileLoop test body =>
    have hloop : Expects p.tree (.instr (.marker .loopEnd) :: a) (n + 1) := ha.cons rfl
    have htests : Expects p.tree (.instr (.whileTest test body id) :: .instr (.marker .loopEnd) :: a) (n + 2) :=
      hloop.put fun _ => ⟨(hlevel rfl).halt ha.height _,
        List.forall_mem_singleton.mpr (child test List.mem_cons_self)⟩
    have htest : Expects p.tree (.node test :: .instr (.whileTest test body id) ::
        .instr (.marker .loopEnd) :: a) (n + 1) := htests.cons (child test List.mem_cons_self)
    exact htest.cons rfl
  | breakStatement => exact ha.jump (hlevel rfl) rfl
  | continueStatement => exact ha.jump (hlevel rfl) rfl
  | unary op operand => exact expects_operand (child operand List.mem_cons_self) rfl rfl rfl ha
  | binary op left right =>
    have hop : Expects p.tree (.instr (.binary op id) :: a) (n + 2) := ha.cons rfl
    have hright : Expects p.tree (.node right :: .instr (.binary op id) :: a) (n + 1) :=
      hop.cons (child right (List.mem_cons_of_mem _ List.mem_cons_self))
    exact hright.cons (child left List.mem_cons_self)
  | logical op left right =>
    have hright := child right (List.mem_cons_of_mem _ List.mem_cons_self)
    exact expects_operand (child left List.mem_cons_self) rfl rfl hright ha
  | conditional test consequent alternate =>
    have hconsequent := child consequent (List.mem_cons_of_mem _ List.mem_cons_self)
    have halternate := child alternate (List.mem_cons_of_mem _ (List.mem_cons_of_mem _ List.mem_cons_self))
    exact expects_operand (child test List.mem_cons_self) rfl rfl
      (Bool.or_eq_false_iff.mpr ⟨hconsequent, halternate⟩) ha
  | assignment name value => exact expects_operand (child value List.mem_cons_self) rfl rfl rfl ha
  | arrayLiteral elements =>
    have hmake : Expects p.tree (.instr (.makeArray elements.length id) :: a) (n + elements.length) := ha.cons rfl
    rw [kindItems, List.append_assoc]
    exact hmake.expressions child
  | objectLiteral properties =>
    have hmake : Expects p.tree (.instr (.makeObject (properties.map Prod.fst) id) :: a)
        (n + (properties.map Prod.fst).length) := ha.cons rfl
    have hvalues : Expects p.tree ((properties.map Prod.snd).map Item.node ++
        .instr (.makeObject (properties.map Prod.fst) id) :: a) n :=
      Expects.expressions (by simpa using hmake) child
    rw [List.map_map] at hvalues
    rw [kindItems, List.append_assoc]
    exact hvalues
  | member object property =>
    have hget : Expects p.tree (.instr (.memberGet id) :: a) (n + 2) := ha.cons rfl
    have hkey := expects_keyItem
      (fun i hi => child i (List.mem_cons_of_mem _ (Option.mem_toList.mpr hi))) hget
    exact hkey.cons (child object List.mem_cons_self)
  | memberAssignment object property value =>
    have hset : Expects p.tree (.instr (.memberSet id) :: a) (n + 3) := ha.cons rfl
    have hvalue : Expects p.tree (.node value :: .instr (.memberSet id) :: a) (n + 2) :=
      hset.cons (child value (by simp [NodeKind.expressions, NodeKind.children]))
    have hkey := expects_keyItem (fun i hi =>
      child i (List.mem_cons_of_mem _ (List.mem_append_left _ (Option.mem_toList.mpr hi)))) hvalue
    exact hkey.cons (child object List.mem_cons_self)
  | _ => exact absurd rfl hitems

theorem expects_padding (ha : a.Expects t (n + 1)) (kind : NodeKind) : Expects t (kind.padding ++ a) (n + 1) := by
  cases kind with
  | program body => exact ha.cons rfl
  | _ => exact ha

theorem level_padding (hlevel : a.Level n) (kind : NodeKind) : Level n (kind.padding ++ a) :=
  hlevel.passes fun item hitem => by rw [eq_of_mem_padding hitem]; rfl

/-- The argument of a `return` leaves one value. -/
theorem expects_returnItem (ht : t.WellPlaced) {id : NodeId} {argument : Option NodeId}
    (hkind : t.kind? id = some (.returnStatement argument)) (ha : a.Expects t (n + 1)) :
    Expects t (returnItem argument :: a) n := by
  cases argument with
  | none => exact ha.cons rfl
  | some id => exact ha.cons (ht.expression hkind List.mem_cons_self)

/-- One more trip goes on at the height of the loop. -/
theorem expects_tripItems {test update : Option NodeId} {body node : NodeId} {vars : List Name}
    (htests : ∀ id ∈ test.toList ++ update.toList, t.isStatement id = false) (ha : a.Expects t (n + 1))
    (hlevel : a.Level (n + 1)) : Expects t (tripItems test update body vars node ++ a) (n + 1) := by
  have hagain : Expects t (.instr (.forTest test update body vars node) :: a) (n + 2) :=
    ha.put fun _ => ⟨hlevel, htests⟩
  have htest : Expects t (loopTest test :: .instr (.forTest test update body vars node) :: a) (n + 1) :=
    expects_loopTest (fun i hi => htests i (List.mem_append_left _ (Option.mem_toList.mpr hi))) hagain
  have hupdate := expects_dropped update htest fun i hi h => by
    rw [htests i (List.mem_append_right _ (Option.mem_toList.mpr hi))] at h
    cases h
  have hpassed : ∀ item ∈ (update.map fun id => [Item.node id, .instr .pop]).getD [], item.isStop = false := by
    cases update with
    | none => exact List.forall_mem_nil _
    | some id => exact List.forall_mem_cons.mpr ⟨rfl, List.forall_mem_singleton.mpr rfl⟩
  have hfresh : Expects t (.instr (.freshTrip vars) ::
      ((update.map fun id => [Item.node id, .instr .pop]).getD [] ++
        loopTest test :: .instr (.forTest test update body vars node) :: a)) (n + 1) := hupdate.cons rfl
  have htrip : Expects t (.instr (.marker .tripEnd) :: .instr (.freshTrip vars) ::
      ((update.map fun id => [Item.node id, .instr .pop]).getD [] ++
        loopTest test :: .instr (.forTest test update body vars node) :: a)) (n + 1) := hfresh.cons rfl
  have hbody := expects_node body htrip fun _ =>
    ((((hlevel.pass rfl).pass (not_isStop_loopTest test)).passes hpassed).pass rfl).halt hfresh.height _
  rw [tripItems, List.append_assoc, List.append_assoc]
  exact hbody.cons rfl

/-- An instruction goes on with the values that it has not taken, and those that it leaves if it puts no items in
front. -/
theorem expects_offers {i : Instr} {items : List Item} (hplain : isPlainInstr i = true) (hitems : items ∈ i.offers)
    (ha : a.Expects t (n + i.output)) (hwork : i.isStatementWork t = true →
      Level (n + i.output) a ∧ ∀ id ∈ (Item.instr i).tests, t.isStatement id = false) :
    ∃ m, m + i.pops = n + i.input ∧ Expects t (items ++ a) (m + if items = [] then i.pushes else 0) := by
  cases i with
  | logical op right node =>
    refine ⟨n, rfl, ?_⟩
    simp only [Instr.offers, List.mem_cons, List.not_mem_nil, or_false] at hitems
    obtain rfl | rfl := hitems
    · exact ha
    · exact expects_node right ha fun h => (hwork h).1
  | branch consequent alternate node =>
    refine ⟨n, rfl, ?_⟩
    simp only [Instr.offers, List.mem_cons, List.not_mem_nil, or_false] at hitems
    obtain rfl | rfl := hitems
    · exact expects_node consequent ha fun h => (hwork (Bool.or_eq_true_iff.mpr (.inl h))).1
    · cases alternate with
      | none => exact ha
      | some id => exact expects_node id ha fun h => (hwork (Bool.or_eq_true_iff.mpr (.inr h))).1
  | whileTest test body node =>
    refine ⟨n + 1, rfl, ?_⟩
    obtain ⟨hlevel, htests⟩ := hwork rfl
    simp only [Instr.offers, List.mem_cons, List.not_mem_nil, or_false] at hitems
    obtain rfl | rfl := hitems
    · exact ha
    · have htest := htests test List.mem_cons_self
      have hagain : Expects t (.instr (.whileTest test body node) :: a) (n + 2) := ha.put fun _ => ⟨hlevel, htests⟩
      have hnext : Expects t (.node test :: .instr (.whileTest test body node) :: a) (n + 1) := hagain.cons htest
      have htrip : Expects t
          (.instr (.marker .tripEnd) :: .node test :: .instr (.whileTest test body node) :: a) (n + 1) :=
        hnext.cons rfl
      have hbody := expects_node body htrip fun _ => ((hlevel.pass rfl).pass rfl).halt hnext.height _
      exact hbody.cons rfl
  | forTest test update body vars node =>
    refine ⟨n + 1, rfl, ?_⟩
    obtain ⟨hlevel, htests⟩ := hwork rfl
    simp only [Instr.offers, List.mem_cons, List.not_mem_nil, or_false] at hitems
    obtain rfl | rfl := hitems
    · exact ha
    · rw [if_neg (show tripItems test update body vars node ≠ [] from List.cons_ne_nil _ _)]
      exact expects_tripItems htests ha hlevel
  | assign | declare | restore | reset | breakLoop | continueLoop | apply => cases hplain
  | _ =>
    obtain rfl := List.mem_singleton.mp hitems
    exact ⟨n, rfl, ha⟩

/-! ## 2. Jumps and calls -/

theorem input_of_target {i : Instr} {target : Marker} (h : i.target? = some target) :
    i.input = 0 ∧ i.output = 1 ∧ (Item.instr i).tests = [] ∧ target ≠ .call := by
  cases i <;> cases h <;> exact ⟨rfl, rfl, rfl, by decide⟩

/-- Where a jump may stop, the work goes on with as many values. -/
theorem expects_stop {dropped rest : Agenda} {item : Item} {target : Marker}
    (ha : Expects t (dropped ++ item :: rest) n) (hlevel : Level n (dropped ++ item :: rest))
    (hdropped : ∀ i ∈ dropped, i.isPassed target = true) (hitem : item.isStop = true) :
    rest.Expects t n ∧ (item.isMarker .call = false → rest.Level n) := by
  obtain ⟨hheight, hrest⟩ := hlevel.stop (fun i hi => (Item.isPassed_iff.mp (hdropped i hi)).1.2) hitem
  exact ⟨⟨ha.fits.suffix ((List.suffix_cons _ _).trans (List.suffix_append _ _)), hheight⟩, hrest⟩

/-- A jump that comes to the end of a scope goes on behind it. -/
theorem expects_stopped {i : Instr} {target : Marker} {dropped rest : Agenda} {env : Env} {closesCall : Bool}
    (htarget : i.target? = some target) (ha : Expects t (dropped ++ .instr (.restore env closesCall) :: rest) (n + 1))
    (hlevel : Level (n + 1) (dropped ++ .instr (.restore env closesCall) :: rest))
    (hdropped : ∀ i ∈ dropped, i.isPassed target = true) :
    Expects t (.instr (.restore env closesCall) :: .instr i :: rest) n := by
  obtain ⟨hinput, houtput, htests, -⟩ := input_of_target htarget
  obtain ⟨hbehind, hrest⟩ := expects_stop ha hlevel hdropped rfl
  have hagain : Expects t (.instr i :: rest) (n + (Item.instr i).input) :=
    Expects.jump (by rw [Item.output, houtput]; exact hbehind) (by rw [Item.output, houtput]; exact hrest rfl) htests
  rw [Item.input, hinput] at hagain
  exact hagain.cons rfl

/-- What is beneath work, and what the work is counted with behind it.  The end of a call has a call marker in front
of it, as long as there is work that may jump; in front of nothing, work is counted as if a marker came behind it. -/
inductive Beneath : Agenda → Agenda → Prop where
  | call {b : Agenda} (hb : b.IsEnd) : Beneath b []
  | nothing : Beneath [] [.instr (.marker .call)]

/-- Work that may jump out of all others goes on with one value then. -/
theorem eq_one_of_level (hlevel : Level n (a ++ [.instr (.marker .call)]))
    (hmarker : .instr (.marker .call) ∉ a) : n = 1 := by
  have hdropped : ∀ item ∈ a, item.isMarker .call = false := by
    intro item hitem
    cases h : item.isMarker .call with
    | false => rfl
    | true => exact absurd (Item.isMarker_iff.mp h ▸ hitem) hmarker
  exact (hlevel.stop hdropped rfl).1.symm

/-- When all work has been done, one value is left. -/
theorem expects_marker (t : Tree) : Expects t [.instr (.marker .call)] 1 :=
  ⟨⟨⟨Nat.le_refl _, fun h => (by cases h)⟩, trivial⟩, rfl⟩

/-- What is left behind the end of the function, or of all work, goes on with as many values. -/
theorem Beneath.unwindCall (h : Beneath b c) (ha : Expects t (a ++ c) n) (hlevel : Level n (a ++ c))
    (hmarker : .instr (.marker .call) ∈ a ++ c) :
    ∃ a', Agenda.unwindCall (a ++ b) = a' ++ b ∧ Expects t (a' ++ c) n := by
  by_cases hinside : .instr (.marker .call) ∈ a
  · refine ⟨Agenda.unwindCall a, unwindCall_append_right hinside b, ?_⟩
    rw [← unwindCall_append_right hinside]
    exact ha.unwindCall hlevel hmarker
  · cases h with
    | call hb => exact absurd (List.append_nil a ▸ hmarker) hinside
    | nothing =>
      obtain rfl := eq_one_of_level hlevel hinside
      obtain ⟨dropped, -, heq⟩ | ⟨-, hnil⟩ := unwindCall_cases a
      · exact absurd (heq ▸ List.mem_append_right _ List.mem_cons_self) hinside
      · exact ⟨[], by rw [List.append_nil, hnil, List.append_nil], expects_marker t⟩

/-- A jump finds its marker in front of what is beneath. -/
theorem Beneath.reached (h : Beneath b c) {target : Marker} {rest : Agenda}
    (hmarker : .instr (.marker .call) ∈ a ++ c) (hsearch : searchLoop target (a ++ b) = .reached rest) :
    ∃ dropped rest', (∀ item ∈ dropped, item.isPassed target = true) ∧
      a = dropped ++ .instr (.marker target) :: rest' ∧ rest = rest' ++ b := by
  cases h with
  | call hb =>
    rw [List.append_nil] at hmarker
    obtain ⟨dropped, rest', hdropped, ha, heq⟩ | ⟨_, _, _, _, _, _, heq⟩ | heq :=
      searchLoop_append_right target hmarker b <;> cases heq.symm.trans hsearch
    exact ⟨dropped, rest', hdropped, ha, rfl⟩
  | nothing =>
    obtain ⟨dropped, hdropped, ha⟩ := eq_of_searchLoop_reached hsearch
    exact ⟨dropped, rest, hdropped, (List.append_nil a).symm.trans ha, (List.append_nil rest).symm⟩

/-- A jump comes to the end of a scope in front of what is beneath. -/
theorem Beneath.stopped (h : Beneath b c) {target : Marker} {item : Item} {rest : Agenda}
    (hmarker : .instr (.marker .call) ∈ a ++ c) (hsearch : searchLoop target (a ++ b) = .scope item rest) :
    ∃ dropped env closesCall rest', (∀ item ∈ dropped, item.isPassed target = true) ∧
      item = .instr (.restore env closesCall) ∧ a = dropped ++ item :: rest' ∧ rest = rest' ++ b := by
  cases h with
  | call hb =>
    rw [List.append_nil] at hmarker
    obtain ⟨_, _, _, _, heq⟩ | ⟨dropped, env, closesCall, rest', hdropped, ha, heq⟩ | heq :=
      searchLoop_append_right target hmarker b <;> cases heq.symm.trans hsearch
    exact ⟨dropped, env, closesCall, rest', hdropped, rfl, ha, rfl⟩
  | nothing =>
    obtain ⟨dropped, env, closesCall, hdropped, hitem, ha⟩ := eq_of_searchLoop_scope hsearch
    exact ⟨dropped, env, closesCall, rest, hdropped, hitem, (List.append_nil a).symm.trans ha,
      (List.append_nil rest).symm⟩

/-- A call sees to its end, which is in front of what is beneath, or is the end of a call that is there already. -/
theorem Beneath.closing (h : Beneath b c) (ha : Expects t (a ++ c) n) (env : Env) :
    ∃ a', (a ++ b).closing env = a' ++ b ∧ Expects t (a' ++ c) n := by
  cases a with
  | nil =>
    cases h with
    | call hb =>
      obtain ⟨env', rest, rfl⟩ := hb
      exact ⟨[], rfl, ha⟩
    | nothing => exact ⟨[.instr (.restore env true)], rfl, ha.cons rfl⟩
  | cons item rest =>
    obtain ⟨-, -, hclosing⟩ | ⟨env', closesCall, rest', heq, -, hclosing⟩ :=
      closing_cases env (item :: rest ++ b)
    · exact ⟨.instr (.restore env true) :: item :: rest, hclosing, ha.cons rfl⟩
    · obtain ⟨rfl, rfl⟩ := List.cons.inj heq
      obtain ⟨_, rfl, hbehind, -⟩ := ha.behind
      have hrest : Expects t (rest ++ c) n := hbehind
      exact ⟨.instr (.restore env' true) :: rest, hclosing, hrest.cons rfl⟩

/-- The body of a function leaves one value. -/
theorem expects_bodyItems (ht : t.WellPlaced) {id : NodeId} {fname : Option Name} {params : List Name}
    {code : FunctionBody} (hkind : t.kind? id = some (.function fname params code))
    (ha : a.Expects t (n + 1)) : Expects t (bodyItems code ++ a) n := by
  cases code with
  | expression expr => exact ha.cons (ht.expression hkind List.mem_cons_self)
  | block statements =>
    have hmarker : Expects t (.instr (.marker .call) :: a) (n + 1) := ha.cons rfl
    have hlevel : Level (n + 1) (.instr (.marker .call) :: a) := ⟨fun _ => ha.height, fun h => (by cases h)⟩
    rw [bodyItems, List.append_assoc]
    exact hmarker.ofStatements statements hlevel

theorem drop_operands (args : List Value) (callee : Value) (receiver : Option Value) (stash : Stash) :
    (args.reverse ++ callee :: (receiver.toList ++ stash)).drop (args.length + 1 + receiver.isSome.toNat) = stash := by
  rw [Nat.add_assoc, ← List.drop_drop, ← args.length_reverse, List.drop_left]
  cases receiver <;> rfl

/-- The operands of a call are values of the work itself. -/
theorem over_operands {s : State} {base : Stash} {args : List Value} {callee : Value} {receiver : Option Value}
    {stash : Stash} (hoperands : s.stash = args.reverse ++ callee :: (receiver.toList ++ stash))
    (hover : s.Over base (n + (args.length + 1 + receiver.isSome.toNat))) : State.Over base n { s with stash } := by
  have htaken : Stash.Exchanged (args.length + 1 + receiver.isSome.toNat) 0 s.stash
      ({ s with stash } : State).stash :=
    ⟨Nat.zero_le _, by rw [hoperands, drop_operands]; rfl⟩
  exact hover.exchange htaken

/-! ## 3. Steps -/

variable {s s' : State} {base : Stash}

/-- A call that invokes no continuation returns at once, or enters a function of the program. -/
theorem Call.holds (ht : p.tree.WellPlaced) {callee : Value} {args : List Value} (h : Call p s s' callee args)
    (hbeneath : Beneath b c) (hagenda : s.agenda = a ++ b) (ha : Expects p.tree (a ++ c) (n + 1))
    (hover : s.Over base n) (hnone : ∀ k, callee = .continuation k → 1 < args.length) :
    ∃ a n, s'.agenda = a ++ b ∧ Expects p.tree (a ++ c) n ∧ s'.Over base n := by
  cases h with
  | @enter identity f fname params code frame name node receiver hclosure hkind harity hagenda' hstash =>
    obtain ⟨a', hclosing, ha'⟩ := hbeneath.closing ha s.env
    refine ⟨bodyItems code ++ a', n, ?_, ?_, hover.of_eq hstash⟩
    · rw [hagenda', hagenda, hclosing, List.append_assoc]
    · rw [List.append_assoc]
      exact expects_bodyItems ht hkind ha'
  | answer hagenda' hstash => exact ⟨a, n + 1, hagenda'.trans hagenda, ha, hover.push hstash⟩
  | invoke hcontinuation harity => exact absurd (hnone _ hcontinuation) (Nat.not_lt.mpr harity)

/-- Every item that invokes no continuation leaves the work in front of what is beneath with the values that it goes
on with. -/
theorem Move.holds (ht : p.tree.WellPlaced) {item : Item} (h : Move p s s' item) (hbeneath : Beneath b c)
    (hagenda : s.agenda = a ++ b) (ha : Expects p.tree (item :: (a ++ c)) n) (hover : s.Over base n)
    (hmarker : item.isStatementWork p.tree = true → .instr (.marker .call) ∈ a ++ c)
    (hnone : ∀ k v, ¬State.Invokes { s with agenda := item :: s.agenda } k v) :
    ∃ a n, s'.agenda = a ++ b ∧ Expects p.tree (a ++ c) n ∧ s'.Over base n := by
  obtain ⟨n, rfl, hbehind, hjump⟩ := ha.behind
  have straight : ∀ i : Instr, item = .instr i → i.isStraight = true →
      ∃ a n, s'.agenda = a ++ b ∧ Expects p.tree (a ++ c) n ∧ s'.Over base n := by
    rintro i rfl hi
    obtain ⟨hagenda', hstash⟩ := h.exchanges hi
    exact ⟨a, _, hagenda'.trans hagenda, hbehind, hover.exchange (hstash hover.le)⟩
  cases h with
  | @plain id kind hkind hopened hgoes hagenda' hstill hstash =>
    refine ⟨kindItems p id kind ++ (kind.padding ++ a), n + if kindItems p id kind = [] then 1 else 0, ?_, ?_,
      hover.exchange hstash⟩
    · rw [hagenda', hagenda, List.append_assoc, List.append_assoc]
    · have hpadded := expects_padding hbehind kind
      rw [List.append_assoc, List.append_assoc]
      split
      next hitems =>
        rw [hitems]
        exact hpadded
      next hitems =>
        exact expects_kindItems ht hkind hitems hpadded fun hstatement =>
          level_padding (hjump ((Tree.isStatement_of_kind hkind).trans hstatement)).1 kind
  | @scope id kind name hkind hopened hagenda' hcalls hsnapshots hmade hnames hstash =>
    have hpadded : Expects p.tree (kind.padding ++ (a ++ c)) (n + 1) := expects_padding hbehind kind
    have hlevel : kind.isStatement = true → Level (n + 1) (kind.padding ++ (a ++ c)) := fun hstatement =>
      level_padding (hjump ((Tree.isStatement_of_kind hkind).trans hstatement)).1 kind
    have hitems : kindItems p id kind ≠ [] := kindItems_ne_nil hopened
    have hover' : s'.Over base n := hover.of_eq hstash
    obtain heq | heq := opening_cases s.env (kind.padding ++ s.agenda)
    · refine ⟨kindItems p id kind ++ (kind.padding ++ a), n, ?_, ?_, hover'⟩
      · rw [hagenda', heq, hagenda, List.append_assoc, List.append_assoc]
      · rw [List.append_assoc, List.append_assoc]
        exact expects_kindItems ht hkind hitems hpadded hlevel
    · refine ⟨kindItems p id kind ++ .instr (.restore s.env false) :: (kind.padding ++ a), n, ?_, ?_, hover'⟩
      · rw [hagenda', heq, hagenda, List.append_assoc, List.cons_append, List.append_assoc]
      · rw [List.append_assoc, List.cons_append, List.append_assoc]
        exact expects_kindItems ht hkind hitems (hpadded.cons rfl) fun h => (hlevel h).halt hpadded.height _
  | @returned id argument hkind hagenda' hstash hstill =>
    have hwork : (Item.node id).isStatementWork p.tree = true := Tree.isStatement_of_kind hkind
    have hover' : s'.Over base n := hover.of_eq hstash
    have hlevel := (hjump hwork).1
    rw [hagenda] at hagenda'
    -- In tail position the rest of the function is dropped at once, and else by the item behind the value.
    split at hagenda'
    · obtain ⟨a', hunwound, hrest⟩ := hbeneath.unwindCall hbehind hlevel (hmarker hwork)
      rw [hunwound] at hagenda'
      exact ⟨returnItem argument :: a', n, hagenda', expects_returnItem ht hkind hrest, hover'⟩
    · have hreset : Expects p.tree (.instr .reset :: (a ++ c)) (n + 1) := Expects.jump hbehind hlevel rfl
      exact ⟨returnItem argument :: .instr .reset :: a, n, hagenda', expects_returnItem ht hkind hreset, hover'⟩
  | @instr i items hplain hoffered hagenda' hstill hstash =>
    obtain ⟨m, hm, hexpects⟩ := expects_offers hplain hoffered hbehind hjump
    have hover' : s.Over base (m + i.pops) := hm ▸ hover
    refine ⟨items ++ a, _, ?_, ?_, hover'.exchange (hstash hover'.le)⟩
    · rw [hagenda', hagenda, List.append_assoc]
    · rw [List.append_assoc]
      exact hexpects
  | assign => exact straight _ rfl rfl
  | declare => exact straight _ rfl rfl
  | freshTrip => exact straight _ rfl rfl
  | restore => exact straight _ rfl rfl
  | reset hagenda' hstash hstill =>
    obtain ⟨a', hunwound, hrest⟩ := hbeneath.unwindCall hbehind (hjump rfl).1 (hmarker rfl)
    rw [hagenda, hunwound] at hagenda'
    exact ⟨a', n + 1, hagenda', hrest, hover.of_eq hstash⟩
  | @reached i target rest htarget hsearch hagenda' hstash hstill =>
    have hwork : (Item.instr i).isStatementWork p.tree = true := Instr.isStatementWork_of_target htarget
    obtain ⟨hinput, houtput, -, -⟩ := input_of_target htarget
    have hlevel := (hjump hwork).1
    rw [hagenda] at hsearch
    obtain ⟨dropped, rest', hdropped, rfl, rfl⟩ := hbeneath.reached (hmarker hwork) hsearch
    rw [Item.output, houtput, List.append_assoc] at hbehind hlevel
    rw [Item.input, hinput] at hover
    exact ⟨rest', n + 1, hagenda', (expects_stop hbehind hlevel hdropped rfl).1, hover.push hstash⟩
  | @stopped i target ending rest htarget hsearch hagenda' hstash hstill =>
    have hwork : (Item.instr i).isStatementWork p.tree = true := Instr.isStatementWork_of_target htarget
    obtain ⟨hinput, houtput, -, -⟩ := input_of_target htarget
    have hlevel := (hjump hwork).1
    rw [hagenda] at hsearch
    obtain ⟨dropped, env, closesCall, rest', hdropped, rfl, rfl, rfl⟩ := hbeneath.stopped (hmarker hwork) hsearch
    rw [Item.output, houtput, List.append_assoc] at hbehind hlevel
    rw [Item.input, hinput] at hover
    exact ⟨.instr (.restore env closesCall) :: .instr i :: rest', n, hagenda',
      expects_stopped htarget hbehind hlevel hdropped, hover.of_eq hstash⟩
  | call hoperands houtcome =>
    exact houtcome.holds ht hbeneath hagenda hbehind (over_operands hoperands hover) fun k =>
      one_lt_of_not_invokes hoperands hnone
  | @callCc callee receiver stash node hoperands houtcome =>
    have hover' := over_operands (show s.stash = [callee].reverse ++ _ from hoperands) hover
    exact houtcome.holds ht hbeneath hagenda hbehind ⟨hover'.suffix, hover'.size⟩ fun k hk =>
      absurd hk (ne_continuation_of_not_invokes hoperands hnone k)
  | callCcTwice hoperands houtcome => exact absurd (invokes_of_callCcTwice hoperands) (hnone _ _)

end Machine

/-! ## 4. Work in front of nothing -/

/-- The work goes on with `n` values, and leaves one. -/
def Agenda.Awaits (t : Tree) (a : Agenda) (n : Nat) : Prop :=
  Agenda.Expects t (a ++ [.instr (.marker .call)]) n

/-- What `State.Holds` says of the work inside of a call, for work that leaves one value. -/
structure State.Pends (t : Tree) (b : Agenda) (base : Stash) (a : Agenda) (n : Nat) (s : State) : Prop where
  agenda : s.agenda = a ++ b
  awaits : a.Awaits t n
  values : s.Over base n

namespace Agenda

variable {t : Tree} {a : Agenda} {n : Nat}

/-- When all work has been done, one value is left. -/
theorem Awaits.nil (h : Awaits t [] n) : n = 1 :=
  h.height.symm

theorem awaits_node (t : Tree) (id : NodeId) : Awaits t [.node id] 0 := by
  have hend : Expects t [.instr (.marker .call)] 1 := Machine.expects_marker t
  exact hend.put fun _ => ⟨⟨fun _ => rfl, fun h => (by cases h)⟩, List.forall_mem_nil _⟩

end Agenda

namespace Machine

open Agenda

variable {p : Setting} {s s' : State} {a b : Agenda} {base : Stash} {n : Nat}

/-- Every move that invokes no continuation keeps the values that the work goes on with. -/
theorem Move.awaits (ht : p.tree.WellPlaced) {item : Item} (h : Move p s s' item)
    (ha : Awaits p.tree (item :: s.agenda) n) (hover : s.Over base n)
    (hnone : ∀ k v, ¬State.Invokes { s with agenda := item :: s.agenda } k v) :
    ∃ n, s'.agenda.Awaits p.tree n ∧ s'.Over base n := by
  have hmarker : .instr (.marker .call) ∈ s.agenda ++ [.instr (.marker .call)] :=
    List.mem_append_right _ List.mem_cons_self
  obtain ⟨a', n', hagenda', hawaits, hover'⟩ :=
    h.holds ht .nothing (List.append_nil _).symm ha hover (fun _ => hmarker) hnone
  rw [List.append_nil] at hagenda'
  exact ⟨n', hagenda' ▸ hawaits, hover'⟩

/-- A step in front of `b` that invokes no continuation keeps the values that the work goes on with. -/
theorem pends_advance (ht : p.tree.WellPlaced) {item : Item} (hs : s.Pends p.tree b base (item :: a) n)
    {kept : Array Snapshot} {a' : Agenda}
    (hmove : Move p { s with agenda := a } { s' with agenda := a', snapshots := kept } item)
    (hs' : s'.agenda = a' ++ b) (hnone : ∀ k v, ¬s.Invokes k v) : ∃ n, s'.Pends p.tree b base a' n := by
  obtain ⟨hagenda, hawaits, hover⟩ := hs
  have hcalm : ∀ k v, ¬State.Invokes { s with agenda := item :: a } k v := not_invokes_cons hagenda hnone
  obtain ⟨n, hawaits', hover'⟩ := hmove.awaits ht hawaits ⟨hover.suffix, hover.size⟩ hcalm
  exact ⟨n, hs', hawaits', hover'.suffix, hover'.size⟩

end Machine

end ExplicitControl
