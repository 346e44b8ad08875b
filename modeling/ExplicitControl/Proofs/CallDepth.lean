import ExplicitControl.Proofs.Parts
import ExplicitControl.Proofs.PendingWork

/-!
# The depth of calls and the ends of calls

The number of live calls is kept in one register, and the items that end calls in another.  A call adds one to
both or to none, an item that ends a call takes one from both; `return` may drop such items, but in a
well-placed tree the way to the end of the function is clear.  So there are never more ends of calls than live
calls, and in a well-placed tree just as many.
-/

namespace ExplicitControl

/-- The live calls are within the limit and no fewer than the ends of calls; for a well-placed tree they are
as many, and the work is where it belongs. -/
structure Agenda.Ledger (t : Tree) (limit : Nat) (a : Agenda) (c : CallStack) : Prop where
  maximum : c.maxDepth = limit
  bounded : c.depth ≤ limit
  enough : a.closers ≤ c.depth
  placed : t.WellPlaced → a.Placed t
  equal : t.WellPlaced → a.closers = c.depth

/-- The live calls are within the limit and no fewer than the ends of calls, and where an item ends a call
there is one. -/
structure CallStack.Covers (c : CallStack) (limit : Nat) (a : Agenda) : Prop where
  bounded : c.depth ≤ limit
  enough : a.closers ≤ c.depth
  nonempty : ∀ item ∈ a, item.closesCall = true → c.isEmpty = false

structure State.Balanced (t : Tree) (limit : Nat) (s : State) : Prop where
  now : Agenda.Ledger t limit s.agenda s.calls
  kept : ∀ k ∈ s.snapshots, Agenda.Ledger t limit k.agenda k.calls

namespace Agenda

variable {t : Tree} {limit : Nat} {a : Agenda} {c : CallStack} {item : Item}

/-! ## 1. What the ledger outlasts -/

/-- Other work that ends as many calls has the same ledger, if it is where it belongs. -/
theorem Ledger.recount (h : Ledger t limit a c) {b : Agenda} (hcount : closers b = closers a)
    (hplaced : t.WellPlaced → b.Placed t) : Ledger t limit b c :=
  ⟨h.maximum, h.bounded, hcount ▸ h.enough, hplaced, fun ht => hcount ▸ h.equal ht⟩

/-- An item that ends no call is carried out and puts others in front, work on statements only if it is such work. -/
theorem Ledger.work (h : Ledger t limit (item :: a) c) (hitem : item.closesCall = false) {items : Agenda}
    (hquiet : ∀ next ∈ items, next.isQuiet = true)
    (hwork : t.WellPlaced → item.isStatementWork t = false → ∀ next ∈ items, next.isStatementWork t = false) :
    Ledger t limit (items ++ a) c := by
  have hclose : ∀ next ∈ items, next.closesCall = false := fun next hnext =>
    Item.closesCall_of_not_isRestore (Item.not_isRestore_of_isQuiet (hquiet next hnext))
  have hcount : closers (items ++ a) = closers (item :: a) := by
    rw [closers_append, closers_eq_zero hclose, closers_cons, hitem]
    exact Nat.zero_add _
  refine h.recount hcount fun ht => (h.placed ht).2.append hclose fun next hnext hstatement => ?_
  -- What is put in front is work on statements only if the item itself was, and then the way is clear.
  cases hclear : item.isStatementWork t with
  | true => exact (h.placed ht).1 hclear
  | false => exact absurd ((hwork ht hclear next hnext).symm.trans hstatement) (by decide)

theorem Ledger.tail (h : Ledger t limit (item :: a) c) (hitem : item.closesCall = false) :
    Ledger t limit a c :=
  have hnone : ∀ next ∈ ([] : Agenda), next.isQuiet = true := List.forall_mem_nil _
  h.work hitem hnone fun _ _ => List.forall_mem_nil _

/-- An item that neither ends a call nor does the work of a statement is put behind the next one. -/
theorem Ledger.insert (h : Ledger t limit (item :: a) c) {next : Item} (hnext : next.closesCall = false)
    (hwork : next.isStatementWork t = false) : Ledger t limit (item :: next :: a) c := by
  have hcount : closers (item :: next :: a) = closers (item :: a) := by
    rw [closers_cons, closers_cons, closers_cons, hnext]
    rfl
  refine h.recount hcount fun ht => ⟨fun hw => ?_, fun hw => ?_, (h.placed ht).2⟩
  · rw [isClear, hnext, (h.placed ht).1 hw]
    exact Bool.or_true _
  · rw [hwork] at hw
    cases hw

/-- The end of a scope is put behind the item, or is there already. -/
theorem Ledger.opening (h : Ledger t limit (item :: a) c) (env : Env) : Ledger t limit (item :: a.opening env) c := by
  unfold Agenda.opening
  split
  · exact h
  · exact h.insert rfl rfl

theorem Ledger.padding (h : Ledger t limit (item :: a) c) (kind : NodeKind) :
    Ledger t limit (item :: (kind.padding ++ a)) c := by
  cases kind with
  | program body => exact h.insert rfl rfl
  | _ => exact h

/-- The rest of the function is dropped by an item that does the work of a statement. -/
theorem Ledger.unwind (h : Ledger t limit (item :: a) c) (hitem : item.closesCall = false)
    (hwork : item.isStatementWork t = true) : Ledger t limit (unwindCall a) c := by
  have htail := h.tail hitem
  refine ⟨h.maximum, h.bounded, ?_, fun ht => ?_, fun ht => ?_⟩
  · exact Nat.le_trans (closers_suffix (unwindCall_suffix a)) htail.enough
  · exact (htail.placed ht).suffix (unwindCall_suffix a)
  -- Before work on statements the way is clear, so no end of a call is dropped.
  · rw [closers_unwindCall ((h.placed ht).1 hwork)]
    exact htail.equal ht

/-- An expression, or an instruction that is no work on a statement, is put in front. -/
theorem Ledger.cons (h : Ledger t limit a c) (hitem : item.closesCall = false)
    (hwork : t.WellPlaced → item.isStatementWork t = false) : Ledger t limit (item :: a) c := by
  have hcount : closers (item :: a) = closers a := by
    rw [closers_cons, hitem]
    rfl
  refine h.recount hcount fun ht => ⟨fun hw => ?_, h.placed ht⟩
  rw [hwork ht] at hw
  cases hw

/-- The work up to the end of a loop is dropped. -/
theorem Ledger.leave {target : Marker} {dropped rest : Agenda} {m : Marker}
    (h : Ledger t limit (dropped ++ .instr (.marker m) :: rest) c)
    (hdropped : ∀ item ∈ dropped, item.isPassed target = true) : Ledger t limit rest c := by
  have hcount : closers (dropped ++ .instr (.marker m) :: rest) = closers rest := by
    rw [closers_append, closers_passed hdropped, closers_cons]
    exact Nat.zero_add _
  exact h.recount hcount.symm fun ht => ((h.placed ht).suffix (List.suffix_append _ _)).2

/-- The work up to the end of a scope is dropped, and the jump goes on behind it. -/
theorem Ledger.leaveScope {target : Marker} {dropped rest : Agenda} {env : Env} {closesCall : Bool}
    (h : Ledger t limit (item :: (dropped ++ .instr (.restore env closesCall) :: rest)) c)
    (hitem : item.closesCall = false) (hwork : item.isStatementWork t = true)
    (hdropped : ∀ item ∈ dropped, item.isPassed target = true) :
    Ledger t limit (.instr (.restore env closesCall) :: item :: rest) c := by
  have hcount : closers (.instr (.restore env closesCall) :: item :: rest) =
      closers (item :: (dropped ++ .instr (.restore env closesCall) :: rest)) := by
    rw [closers_cons, closers_cons, closers_cons, closers_append, closers_passed hdropped, closers_cons,
      hitem]
    simp
  refine h.recount hcount fun ht => ⟨fun h => (by cases h), fun _ => ?_, ?_⟩
  -- The jump comes behind the end of the scope, where the way is as clear as it was.
  · exact (isClear_of_passed hdropped ((h.placed ht).1 hwork)).2
  · exact ((h.placed ht).2.suffix (List.suffix_append _ _)).2

/-- The end of a scope or of a call is carried out. -/
theorem Ledger.restore {env : Env} {closesCall : Bool}
    (h : Ledger t limit (.instr (.restore env closesCall) :: a) c) :
    Ledger t limit a (if closesCall then c.pop else c) := by
  cases closesCall with
  | false => exact h.tail rfl
  | true =>
    -- One end of a call is gone, and so is one call.
    have hcount : closers (.instr (.restore env true) :: a) = closers a + 1 := closers_cons _ a
    have hpop : c.pop.depth = c.depth - 1 := Array.size_pop
    have hbounded := h.bounded
    have henough := h.enough
    refine ⟨h.maximum, ?_, ?_, fun ht => (h.placed ht).2, fun ht => ?_⟩
    · show c.pop.depth ≤ limit
      omega
    · show closers a ≤ c.pop.depth
      omega
    · show closers a = c.pop.depth
      have := h.equal ht
      omega

/-- Where an item ends a call there is a call. -/
theorem Ledger.depth_pos (h : Ledger t limit a c) {item : Item} (hitem : item ∈ a)
    (hcloses : item.closesCall = true) : 0 < c.depth :=
  Nat.lt_of_lt_of_le (List.countP_pos_iff.mpr ⟨item, hitem, hcloses⟩) h.enough

theorem Ledger.covers (h : Ledger t limit a c) : c.Covers limit a := by
  refine ⟨h.bounded, h.enough, fun item hitem hcloses => ?_⟩
  have := h.depth_pos hitem hcloses
  rw [CallStack.isEmpty, Array.isEmpty_eq_false_iff]
  exact Array.ne_empty_of_size_pos this

/-- A call takes the place of the one that the next item ends. -/
theorem Ledger.replace {env : Env} (h : Ledger t limit (.instr (.restore env true) :: a) c)
    (frame : CallFrame) : Ledger t limit (.instr (.restore env true) :: a) (c.replaceTop frame) := by
  -- One frame is taken off and one put on; there is one to take, since a call ends here.
  have hdepth : (c.replaceTop frame).depth = c.depth := by
    have := h.depth_pos List.mem_cons_self rfl
    show (c.frames.pop.push frame).size = c.frames.size
    rw [Array.size_push, Array.size_pop]
    exact Nat.sub_add_cancel this
  exact ⟨h.maximum, hdepth ▸ h.bounded, hdepth ▸ h.enough, h.placed, fun ht => hdepth ▸ h.equal ht⟩

/-- A call begins, and an end of it is put in front. -/
theorem Ledger.push (h : Ledger t limit a c) (hroom : c.depth < c.maxDepth) (frame : CallFrame)
    (env : Env) :
    Ledger t limit (.instr (.restore env true) :: a) { c with frames := c.frames.push frame } := by
  have hcount : closers (.instr (.restore env true) :: a) = closers a + 1 := closers_cons _ a
  have hdepth : CallStack.depth { c with frames := c.frames.push frame } = c.depth + 1 :=
    Array.size_push _
  refine ⟨h.maximum, ?_, ?_, fun ht => ⟨fun h => (by cases h), h.placed ht⟩, fun ht => ?_⟩
  · rw [hdepth, ← h.maximum]
    exact hroom
  · rw [hcount, hdepth]
    exact Nat.succ_le_succ h.enough
  · rw [hcount, hdepth, h.equal ht]

/-- A call begins, and its end is seen to. -/
theorem Ledger.closing (h : Ledger t limit a c) (hroom : a.endsCall = true ∨ c.depth < c.maxDepth) (frame : CallFrame)
    (env : Env) : Ledger t limit (a.closing env) ((if a.endsCall then c.pop else c).add frame) := by
  obtain ⟨-, hends, hclosing⟩ | ⟨env', closesCall, rest, rfl, hends, hclosing⟩ := Machine.closing_cases env a
  · rw [hclosing, hends]
    exact h.push (hroom.resolve_left (by rw [hends]; decide)) frame env
  · rw [hclosing, hends]
    cases closesCall with
    -- At the end of a call the new one takes its place, and the depth stays.
    | true => exact h.replace frame
    | false => exact (h.tail rfl).push (hroom.resolve_left (by rw [hends]; decide)) frame env'

theorem not_closesCall_ofStatements (ids : List NodeId) : ∀ item ∈ ofStatements ids, item.closesCall = false :=
  fun item hitem =>
    Item.closesCall_of_not_isRestore (Item.not_isRestore_of_isQuiet (isQuiet_ofStatements ids item hitem))

theorem closers_bodyItems (code : FunctionBody) : closers (Machine.bodyItems code) = 0 := by
  cases code with
  | expression expr => rfl
  | block statements =>
    rw [Machine.bodyItems, closers_append, closers_eq_zero (not_closesCall_ofStatements statements)]
    rfl

/-- A function's body is put in front of the end of its call. -/
theorem Ledger.body (h : Ledger t limit a c) {id : NodeId} {name : Option Name} {params : List Name}
    {code : FunctionBody} (hkind : t.kind? id = some (.function name params code)) :
    Ledger t limit (Machine.bodyItems code ++ a) c := by
  cases code with
  | expression expr => exact h.cons rfl fun ht => ht.expression hkind List.mem_cons_self
  | block statements =>
    have hcount : closers (Machine.bodyItems (.block statements) ++ a) = closers a := by
      rw [closers_append, closers_bodyItems, Nat.zero_add]
    rw [Machine.bodyItems, List.append_assoc] at hcount ⊢
    refine h.recount hcount fun ht => ?_
    exact Placed.append (not_closesCall_ofStatements statements) (fun _ _ _ => isClear_marker a)
      ⟨fun h => (by cases h), h.placed ht⟩

end Agenda

namespace Machine

open Agenda

variable {p : Setting} {limit : Nat} {s s' : State}

/-! ## 2. Moves -/

theorem Call.ledger {callee : Value} {args : List Value} (h : Call p s s' callee args)
    (hnow : Ledger p.tree limit s.agenda s.calls)
    (hkept : ∀ k ∈ s.snapshots, Ledger p.tree limit k.agenda k.calls) :
    Ledger p.tree limit s'.agenda s'.calls := by
  cases h with
  | enter hclosure hkind harity hagenda hstash hcalls hsnapshots hmade hnames hroom =>
    rw [hagenda, hcalls]
    exact (hnow.closing hroom _ _).body hkind
  | answer hagenda hstash hstill => exact hagenda ▸ hstill.calls ▸ hnow
  | invoke hcontinuation harity hfound hregisters =>
    have hresumed := hkept _ (Array.mem_of_getElem? hfound)
    rw [show s'.agenda = _ from congrArg Snapshot.agenda hregisters,
      show s'.calls = _ from congrArg Snapshot.calls hregisters]
    exact hresumed

/-- What an item does keeps the ledger right. -/
theorem Move.ledger {item : Item} (h : Move p s s' item) (hnow : Ledger p.tree limit (item :: s.agenda) s.calls)
    (hkept : ∀ k ∈ s.snapshots, Ledger p.tree limit k.agenda k.calls) :
    Ledger p.tree limit s'.agenda s'.calls := by
  have captured : ∀ {r : State}, r.agenda = s.agenda → r.calls = s.calls → Ledger p.tree limit s.agenda s.calls →
      (∀ k ∈ r.snapshots, Ledger p.tree limit k.agenda k.calls) →
      ∀ k ∈ r.captured.snapshots, Ledger p.tree limit k.agenda k.calls := by
    intro r hagenda hcalls htail hr k hk
    obtain hk | ⟨hwork, hlive⟩ := mem_captured hk
    · exact hr k hk
    · rw [hwork, hlive, hagenda, hcalls]
      exact htail
  cases h with
  | @plain id kind hkind hopened hgoes hagenda hstill =>
    rw [hagenda, hstill.calls]
    refine (hnow.padding kind).work rfl (isQuiet_kindItems id kind) fun ht hstatement => ?_
    exact expression_kindItems ht hkind ((Tree.isStatement_of_kind hkind).symm.trans hstatement)
  | @scope id kind name hkind hopened hagenda hcalls =>
    rw [hagenda, hcalls]
    refine ((hnow.padding kind).opening s.env).work rfl (isQuiet_kindItems id kind) fun ht hstatement => ?_
    exact expression_kindItems ht hkind ((Tree.isStatement_of_kind hkind).symm.trans hstatement)
  | @returned id argument hkind hagenda hstash hstill =>
    have hwork : (Item.node id).isStatementWork p.tree = true := Tree.isStatement_of_kind hkind
    rw [hagenda, hstill.calls]
    split
    · refine (hnow.unwind rfl hwork).cons (by cases argument <;> rfl) fun ht => ?_
      cases argument with
      | none => rfl
      | some value => exact ht.expression hkind List.mem_cons_self
    · have hquiet : ∀ next ∈ [returnItem argument, .instr .reset], next.isQuiet = true :=
        List.forall_mem_cons.mpr ⟨isQuiet_returnItem argument, List.forall_mem_singleton.mpr rfl⟩
      exact hnow.work rfl hquiet fun _ hstatement => absurd (hwork.symm.trans hstatement) (by decide)
  | instr hplain hoffered hagenda hstill =>
    rw [hagenda, hstill.calls]
    exact hnow.work (Item.closesCall_of_isPlainInstr hplain) (isQuiet_offers hoffered) fun _ =>
      expression_offers hoffered
  | assign howner hslot hvalue hmutability hagenda henv hcalls => exact hagenda ▸ hcalls ▸ hnow.tail rfl
  | declare howner hagenda henv hcalls => exact hagenda ▸ hcalls ▸ hnow.tail rfl
  | freshTrip hvars hagenda hcalls => exact hagenda ▸ hcalls ▸ hnow.tail rfl
  | restore hagenda hstash henv hcalls =>
    rw [hagenda, hcalls]
    exact hnow.restore
  | reset hagenda hstash hstill => exact hagenda ▸ hstill.calls ▸ hnow.unwind rfl rfl
  | reached htarget hsearch hagenda hstash hstill =>
    obtain ⟨dropped, hdropped, hsplit⟩ := eq_of_searchLoop_reached hsearch
    rw [hagenda, hstill.calls]
    exact (hsplit ▸ hnow.tail (Item.closesCall_of_not_isRestore (Item.not_isRestore_of_target htarget))).leave hdropped
  | @stopped i target ending rest htarget hsearch hagenda hstash hstill =>
    obtain ⟨dropped, env, closesCall, hdropped, rfl, hsplit⟩ := eq_of_searchLoop_scope hsearch
    have hwork : (Item.instr i).isStatementWork p.tree = true := Instr.isStatementWork_of_target htarget
    rw [hagenda, hstill.calls]
    exact (hsplit ▸ hnow).leaveScope (Item.closesCall_of_not_isRestore (Item.not_isRestore_of_target htarget)) hwork
      hdropped
  | call hoperands houtcome => exact houtcome.ledger (hnow.tail rfl) hkept
  | callCc hoperands houtcome => exact houtcome.ledger (hnow.tail rfl) (captured rfl rfl (hnow.tail rfl) hkept)
  | callCcTwice hoperands houtcome =>
    exact houtcome.ledger (hnow.tail rfl)
      (captured rfl rfl (hnow.tail rfl) (captured rfl rfl (hnow.tail rfl) hkept))

/-- Every step keeps the ledger right, for the captured registers as well. -/
theorem Move.balanced {item : Item} (h : Move p s s' item) (hnow : Ledger p.tree limit (item :: s.agenda) s.calls)
    (hkept : ∀ k ∈ s.snapshots, Ledger p.tree limit k.agenda k.calls) : s'.Balanced p.tree limit := by
  refine ⟨h.ledger hnow hkept, fun k hk => ?_⟩
  obtain hk | ⟨⟨arity, hasReceiver, node, rfl⟩, hagenda, hcalls⟩ := h.captures k hk
  · exact hkept k hk
  · exact hagenda ▸ hcalls ▸ hnow.tail rfl

/-! ## 3. Steps and runs -/

theorem balanced_execute {item : Item} {rest : Agenda} (hs : s.Balanced p.tree limit)
    (hagenda : s.agenda = item :: rest) :
    Ensures (execute p item) { s with agenda := rest } (fun _ s' => s'.Balanced p.tree limit) fun _ _ => True :=
  (move_execute item _).mono (fun _ _ h => h.balanced (hagenda ▸ hs.now) hs.kept) fun _ _ _ => trivial

theorem balanced_advance (hs : s.Balanced p.tree limit) (h : advance p s = .running s') :
    s'.Balanced p.tree limit := by
  have := travelBy_meets (J := fun _ => True) (p := p)
    (fun s _ _ (hs : s.Balanced p.tree limit) hagenda =>
      (balanced_execute hs hagenda).mono (fun _ _ h => h) fun _ _ _ => trivial) hs 1
  rwa [travelBy_running 0 h] at this

variable {σ : Type} (t : Tree) (config : Config) (hosts : List EmbeddedFunction) (output : Output)
  (clock : Nat → Nat) (rule : PauseRule σ) (memory : σ)

theorem balanced_build :
    (build t config hosts output clock rule memory).state.Balanced t config.maxCallDepth := by
  refine ⟨⟨rfl, Nat.zero_le _, Nat.le_refl _, fun _ => ⟨fun _ => rfl, trivial⟩, fun _ => rfl⟩, ?_⟩
  exact fun _ h => absurd h (Array.not_mem_empty _)

theorem runThrough_balanced (n : Nat) :
    ((build t config hosts output clock rule memory).runThrough n).progress.Meets
      (fun s => s.Balanced t config.maxCallDepth) fun _ => True :=
  runThrough_meets
    (fun _ _ _ hs hagenda => (balanced_execute hs hagenda).mono (fun _ _ h => h) fun _ _ _ => trivial)
    (balanced_build t config hosts output clock rule memory) n

/-- In every state that a run comes to, and in every snapshot, the live calls are within the limit and no
fewer than the ends of calls, and there is a call wherever an item ends one.  If the tree is well-placed, they
are as many, and none is left when the program has ended. -/
theorem runThrough_depth (n : Nat) :
    ((build t config hosts output clock rule memory).runThrough n).progress.Meets
        (fun s => s.calls.Covers config.maxCallDepth s.agenda ∧
          ∀ k ∈ s.snapshots, k.calls.Covers config.maxCallDepth k.agenda) (fun _ => True) ∧
      (t.WellPlaced →
        ((build t config hosts output clock rule memory).runThrough n).progress.Meets
            (fun s => s.calls.depth = s.agenda.closers ∧
              ∀ k ∈ s.snapshots, k.calls.depth = k.agenda.closers) (fun _ => True) ∧
          ∀ v s, ((build t config hosts output clock rule memory).runThrough n).progress = .finished v s →
            s.calls.depth = 0) := by
  have balanced := runThrough_balanced t config hosts output clock rule memory n
  refine ⟨balanced.mono (fun s hs => ⟨hs.now.covers, fun k hk => (hs.kept k hk).covers⟩) fun _ h => h,
    fun ht => ⟨balanced.mono (fun s hs => ?_) fun _ h => h, fun v s hfinished => ?_⟩⟩
  · exact ⟨(hs.now.equal ht).symm, fun k hk => ((hs.kept k hk).equal ht).symm⟩
  -- At the end nothing is pending, so no call is to be ended.
  · have hend := agenda_of_finished hfinished
    rw [hfinished] at balanced
    have hequal := balanced.now.equal ht
    rw [hend] at hequal
    exact hequal.symm

theorem runThrough_depth_sample :
    Tree.sample.WellPlaced ∧
      ((build .sample .standard [] default (fun _ => 0) .never ()).runThrough 10).progress.Meets
          (fun s => s.calls.depth = s.agenda.closers ∧
            ∀ k ∈ s.snapshots, k.calls.depth = k.agenda.closers) (fun _ => True) ∧
        ∀ v s, ((build .sample .standard [] default (fun _ => 0) .never ()).runThrough 10).progress =
          .finished v s → s.calls.depth = 0 :=
  ⟨Tree.sample_wellPlaced,
    (runThrough_depth .sample .standard [] default (fun _ => 0) .never () 10).2 Tree.sample_wellPlaced⟩

end Machine

end ExplicitControl
