import ExplicitControl.Proofs.Unwinding
import ExplicitControl.Proofs.CallReturn
import ExplicitControl.Proofs.Balance
import ExplicitControl.Proofs.InsertionOrder

/-!
# Operands are evaluated one after another

Work on an expression does not jump out of it, for a jump inside of a function that it calls ends there.  So when the
machine has come from pending work to what is behind it, without invoking a continuation, it has come to everything in
between, in order; and nodes in a row leave their values on the stash in that order.  An object literal therefore
records the values of its properties under their keys in the order in which they are written.
-/

namespace ExplicitControl

/-! ## 1. Work that does not jump out -/

namespace Agenda

/-- All work on statements has the end of its function behind it in the agenda. -/
def Enclosed (t : Tree) : Agenda → Prop
  | [] => True
  | item :: rest => (item.isStatementWork t = true → .instr (.marker .call) ∈ rest) ∧ Enclosed t rest

variable {t : Tree} {a b : Agenda}

theorem Enclosed.suffix (h : a.Enclosed t) (hb : b <:+ a) : b.Enclosed t := by
  obtain ⟨dropped, rfl⟩ := hb
  induction dropped with
  | nil => exact h
  | cons item dropped ih => exact ih h.2

/-- Items are put in front. -/
theorem Enclosed.append {items : List Item} (h : a.Enclosed t)
    (hitems : ∀ item ∈ items, item.isStatementWork t = true → .instr (.marker .call) ∈ a) :
    Enclosed t (items ++ a) := by
  induction items with
  | nil => exact h
  | cons item items ih =>
    rw [List.forall_mem_cons] at hitems
    exact ⟨fun hwork => List.mem_append_right _ (hitems.1 hwork), ih hitems.2⟩

theorem Enclosed.cons {item : Item} (h : a.Enclosed t) (hitem : item.isStatementWork t = false) :
    Enclosed t (item :: a) :=
  ⟨fun hwork => absurd (hitem.symm.trans hwork) (by decide), h⟩

theorem Enclosed.closing (h : a.Enclosed t) (env : Env) : (a.closing env).Enclosed t := by
  obtain ⟨-, -, hclosing⟩ | ⟨env', closesCall, rest, rfl, -, hclosing⟩ := Machine.closing_cases env a
  · exact hclosing ▸ h.cons rfl
  · exact hclosing ▸ Enclosed.cons h.2 rfl

/-- Behind the end of a scope that a jump has come to, the end of its function is still to come. -/
theorem mem_marker_of_passed {target : Marker} {dropped rest : Agenda} {item : Item}
    (hitem : item.isMarker .call = false) (hdropped : ∀ i ∈ dropped, i.isPassed target = true)
    (h : .instr (.marker .call) ∈ dropped ++ item :: rest) : .instr (.marker .call) ∈ rest := by
  obtain h | h := List.mem_append.mp h
  · exact absurd (Item.isPassed_iff.mp (hdropped _ h)).1.2 (by decide)
  · obtain rfl | h := List.mem_cons.mp h
    · cases hitem
    · exact h

end Agenda

namespace Machine

open Agenda

variable {p : Setting} {s s' : State} {a b c : Agenda}

/-- An item whose function, if it does work on statements, ends in the agenda leaves all work so. -/
theorem Reschedules.enclosed (ht : p.tree.WellPlaced) {item : Item} {env : Env} {a b : Agenda}
    (h : Reschedules p env a item b)
    (ha : a.Enclosed p.tree) (hitem : item.isStatementWork p.tree = true → .instr (.marker .call) ∈ a) :
    b.Enclosed p.tree := by
  have padded : ∀ {kind : NodeKind}, Enclosed p.tree (kind.padding ++ a) := fun {kind} =>
    ha.append fun next hnext hwork => by
      rw [eq_of_mem_padding hnext] at hwork
      cases hwork
  cases h with
  | @plain id kind hkind hopened hgoes =>
    refine padded.append fun next hnext hwork => List.mem_append_right _ (hitem ?_)
    cases hstatement : kind.isStatement with
    | true => exact (Tree.isStatement_of_kind hkind).trans hstatement
    | false =>
      rw [expression_kindItems ht hkind hstatement next hnext] at hwork
      cases hwork
  | @scope id kind hkind hopened =>
    have hstatement : p.tree.isStatement id = true := by
      rw [Tree.isStatement_of_kind hkind]
      cases kind <;> first | rfl | exact absurd rfl hopened
    have hmarker : .instr (.marker .call) ∈ kind.padding ++ a := List.mem_append_right _ (hitem hstatement)
    unfold Agenda.opening
    split
    · exact padded.append fun _ _ _ => hmarker
    · exact (Enclosed.cons padded rfl).append fun _ _ _ => List.mem_cons_of_mem _ hmarker
  | @returned id argument hkind =>
    have hargument : (returnItem argument).isStatementWork p.tree = false := by
      cases argument with
      | none => rfl
      | some value => exact ht.expression hkind List.mem_cons_self
    split
    · exact Enclosed.cons (ha.suffix (unwindCall_suffix _)) hargument
    · exact Enclosed.cons ⟨fun _ => hitem (Tree.isStatement_of_kind hkind), ha⟩ hargument
  | @offered i items hplain hoffered =>
    refine ha.append fun next hnext hwork => hitem ?_
    cases hstatement : i.isStatementWork p.tree with
    | true => exact hstatement
    | false =>
      rw [expression_offers hoffered hstatement next hnext] at hwork
      cases hwork
  | same => exact ha
  | reset => exact ha.suffix (unwindCall_suffix _)
  | reached htarget hsearch => exact ha.suffix (suffix_of_searchLoop_reached hsearch)
  | @stopped i target ending rest htarget hsearch =>
    obtain ⟨dropped, env', closesCall, hdropped, rfl, heq⟩ := eq_of_searchLoop_scope hsearch
    have hmarker := hitem (Instr.isStatementWork_of_target htarget)
    rw [heq] at hmarker
    refine Enclosed.cons ⟨fun _ => mem_marker_of_passed rfl hdropped hmarker, ?_⟩ rfl
    exact ha.suffix ((List.suffix_cons _ _).trans (suffix_of_searchLoop_scope hsearch))
  | @entered arity hasReceiver node f fname params code hkind =>
    cases code with
    | expression expr => exact (ha.closing env).cons (ht.expression hkind List.mem_cons_self)
    | block statements =>
      -- The statements are in front of the end of the function.
      rw [bodyItems, List.append_assoc]
      exact Enclosed.append ((ha.closing env).cons rfl) fun _ _ _ => List.mem_cons_self

/-! ## 2. From work to what is behind it -/

/-- A step of enclosed work leaves what is behind it pending. -/
theorem enclosed_advance (ht : p.tree.WellPlaced) {item : Item} (hb : b.endsScope = false)
    (hagenda : s.agenda = item :: (a ++ b)) (ha : Enclosed p.tree (item :: a)) (hnone : ∀ k v, ¬s.Invokes k v)
    (hrun : advance p s = .running s') : ∃ a', s'.agenda = a' ++ b ∧ Enclosed p.tree a' := by
  have hmove := move_of_advance hagenda hrun
  have hcalm : ∀ a, ∀ k v, ¬State.Invokes { s with agenda := item :: a } k v := fun a => not_invokes_cons hagenda hnone
  have hkept := hmove.keeps (.inl hb) rfl ha.1 (hcalm _)
  obtain ⟨a', kept, hagenda', habove⟩ := Move.above (s := { s with agenda := a ++ b }) hb rfl hmove (hcalm _) hkept
  exact ⟨a', hagenda', (habove.reschedules (hcalm _)).enclosed ht ha.2 ha.1⟩

/-- A run through enclosed work, and to what is further behind, comes to what is behind it first. -/
theorem Evaluates.cut (ht : p.tree.WellPlaced) (hc : c.endsScope = false) (hb : b <:+ c) {n : Nat}
    (h : Evaluates p b n s s') (hagenda : s.agenda = a ++ c) (ha : a.Enclosed p.tree) :
    ∃ k s₁, Evaluates p c k s s₁ ∧ Evaluates p b (n - k) s₁ s' := by
  induction n generalizing s a with
  | zero =>
    -- There is no step left, so there is no work in front.
    obtain ⟨hrun, hend, -⟩ := h
    cases hrun
    have hlength := congrArg List.length (hagenda.symm.trans hend)
    rw [List.length_append] at hlength
    obtain rfl : a = [] := List.eq_nil_of_length_eq_zero (by have := hb.length_le; omega)
    exact ⟨0, _, ⟨rfl, hagenda, nofun⟩, rfl, hend, nofun⟩
  | succ n ih =>
    cases a with
    | nil => exact ⟨0, s, ⟨rfl, hagenda, nofun⟩, h⟩
    | cons item a =>
      obtain ⟨hrun, hend, hinside⟩ := h
      obtain ⟨-, -, hnone⟩ := hinside 0 n.succ_pos s rfl
      rw [travel_succ] at hrun
      cases hadvance : advance p s with
      | finished v s₁ => rw [hadvance] at hrun; cases hrun
      | failed e s₁ => rw [hadvance] at hrun; cases hrun
      | running s₁ =>
        rw [hadvance] at hrun
        obtain ⟨a', hagenda', ha'⟩ := enclosed_advance ht hc hagenda ha hnone hadvance
        have hrest : Evaluates p b n s₁ s' := ⟨hrun, hend, fun j hj r hr =>
          hinside (j + 1) (Nat.succ_lt_succ hj) r ((travelBy_running j hadvance).trans hr)⟩
        obtain ⟨k, s₂, hfirst, hsecond⟩ := ih hrest hagenda' ha'
        refine ⟨k + 1, s₂, ⟨(travelBy_running k hadvance).trans hfirst.run, hfirst.agenda, fun j hj r hr => ?_⟩,
          by rwa [Nat.succ_sub_succ]⟩
        cases j with
        | zero =>
          cases hr
          refine ⟨fun heq => ?_, hagenda ▸ List.suffix_append _ _, hnone⟩
          have hlength := congrArg List.length (hagenda.symm.trans heq)
          rw [List.length_append, List.length_cons] at hlength
          omega
        | succ j => exact hfirst.inside j (Nat.lt_of_succ_lt_succ hj) r ((travelBy_running j hadvance).symm.trans hr)

/-- Runs to work that is further and further behind make one run. -/
theorem Evaluates.trans {k n : Nat} (h : Evaluates p c k s s₁) (h' : Evaluates p b n s₁ s') (hb : b <:+ c) :
    Evaluates p b (k + n) s s' := by
  refine ⟨(travelBy_add n h.run).trans h'.run, h'.agenda, fun j hj r hr => ?_⟩
  obtain hlt | ⟨i, rfl⟩ := Nat.lt_or_ge j k |>.imp_right Nat.exists_eq_add_of_le
  · obtain ⟨hne, hbehind, hnone⟩ := h.inside j hlt r hr
    refine ⟨fun heq => hne ?_, hb.trans hbehind, hnone⟩
    exact (hbehind.eq_of_length_le (heq ▸ hb.length_le)).symm
  · exact h'.inside i (by omega) r ((travelBy_add i h.run).symm.trans hr)

/-- A literal is evaluated in one step. -/
theorem evaluates_literal {id : NodeId} {literal : Literal} (hkind : p.tree.kind? id = some (.literal literal))
    (hagenda : s.agenda = .node id :: b) (hrun : advance p s = .running s') : Evaluates p b 1 s s' := by
  obtain hlimited | ⟨r, hr, hnext⟩ := advance_literal hkind hagenda
  · rw [hrun] at hlimited
    cases hlimited
  · obtain rfl : s' = r := Progress.running.inj (hrun.symm.trans hr)
    refine ⟨(travel_one p s).trans hrun, hnext, fun j hj q hq => ?_⟩
    obtain rfl : j = 0 := Nat.lt_one_iff.mp hj
    cases hq
    refine ⟨fun heq => ?_, hagenda ▸ List.suffix_cons _ _,
      fun k v ⟨args, callee, receiver, node, rest, stash, hcall, _⟩ => ?_⟩
    · exact List.cons_ne_self _ _ (hagenda.symm.trans heq)
    · rw [hagenda] at hcall
      cases hcall

/-- The nodes are evaluated one after another, in front of the work `b`.  No continuation is invoked, and each leaves
its value on the stash as it was. -/
inductive InTurn (p : Setting) (b : Agenda) : List NodeId → List Value → State → State → Prop where
  | nil {s : State} (hagenda : s.agenda = b) : InTurn p b [] [] s s
  | cons {id : NodeId} {ids : List NodeId} {v : Value} {vs : List Value} {k : Nat} {s s₁ s' : State}
      (hagenda : s.agenda = .node id :: (ids.map Item.node ++ b)) (hrun : Evaluates p (ids.map Item.node ++ b) k s s₁)
      (hvalue : s₁.stash = v :: s.stash) (hrest : InTurn p b ids vs s₁ s') : InTurn p b (id :: ids) (v :: vs) s s'

/-- The last value is on top. -/
theorem InTurn.stash {ids : List NodeId} {vs : List Value} (h : InTurn p b ids vs s s') :
    s'.stash = vs.reverse ++ s.stash := by
  induction h with
  | nil hagenda => rfl
  | cons hagenda hrun hvalue hrest ih => rw [ih, hvalue, List.reverse_cons, List.append_assoc]; rfl

theorem InTurn.length_eq {ids : List NodeId} {vs : List Value} (h : InTurn p b ids vs s s') :
    vs.length = ids.length := by
  induction h with
  | nil hagenda => rfl
  | cons hagenda hrun hvalue hrest ih => exact congrArg Nat.succ ih

section

variable {σ : Type} {t : Tree} {config : Config} {hosts : List EmbeddedFunction} {output : Output}
  {clock : Nat → Nat} {rule : PauseRule σ} {memory : σ}

/-- A node leaves one value on the stash as it was. -/
theorem value_of_evaluates (ht : t.WellPlaced) (hs : (build t config hosts output clock rule memory).Reaches s)
    {id : NodeId} (hagenda : s.agenda = .node id :: b) (hb : b.endsScope = false) {n : Nat}
    (hrun : Evaluates (build t config hosts output clock rule memory).setting b n s s') :
    ∃ v, s'.stash = v :: s.stash := by
  have hdepth : s.calls.depth = b.closers := by
    rw [← hs.balanced.now.equal ht, hagenda, closers_cons]
    rfl
  have hstart : InFront t b s.stash s.calls [.node id] s :=
    ⟨⟨0, hagenda, awaits_node t id, List.suffix_refl _, rfl⟩, List.prefix_refl _, rfl, rfl⟩
  obtain ⟨a', ⟨⟨k, hpends⟩, -⟩, -⟩ := inFront_run (E := s.env) ht hb hdepth hs hstart hrun
  obtain rfl : a' = [] := List.self_eq_append_left.mp (hrun.agenda.symm.trans hpends.agenda)
  obtain rfl := hpends.awaits.nil
  exact hpends.values.exists_cons

/-- Expressions in a row are evaluated one after another. -/
theorem inTurn_of_evaluates (ht : t.WellPlaced) (hb : b.endsScope = false) {ids : List NodeId}
    (hids : ∀ id ∈ ids, t.isStatement id = false) {n : Nat}
    (hs : (build t config hosts output clock rule memory).Reaches s) (hagenda : s.agenda = ids.map Item.node ++ b)
    (hrun : Evaluates (build t config hosts output clock rule memory).setting b n s s') :
    ∃ vs, InTurn (build t config hosts output clock rule memory).setting b ids vs s s' := by
  induction ids generalizing s n with
  | nil =>
    cases n with
    | zero =>
      cases hrun.run
      exact ⟨[], .nil hagenda⟩
    | succ n => exact absurd hagenda (hrun.inside 0 n.succ_pos s rfl).1
  | cons id ids ih =>
    rw [List.forall_mem_cons] at hids
    have hbehind := endsScope_nodes ids hb
    have hagenda : s.agenda = [.node id] ++ (ids.map Item.node ++ b) := hagenda
    have henclosed : Enclosed t [.node id] := Enclosed.cons (a := []) trivial hids.1
    obtain ⟨k, s₁, hfirst, hrest⟩ := hrun.cut ht hbehind (List.suffix_append _ _) hagenda henclosed
    obtain ⟨v, hvalue⟩ := value_of_evaluates ht hs hagenda hbehind hfirst
    obtain ⟨vs, hvs⟩ := ih hids.2 (hs.travel hfirst.run) hfirst.agenda hrest
    exact ⟨v :: vs, .cons hagenda hfirst hvalue hvs⟩

end

/-! ## 3. Object literals -/

section

variable {σ : Type}

/-- A new object that records the pairs has come onto `base`, and the work `b` is next.  Nothing else in the heap has
changed. -/
structure MakesObject (pairs : List (String × Value)) (base : Stash) (b : Agenda) (s s' : State) : Prop where
  agenda : s'.agenda = b
  made : ∃ c o, s'.stash = .object c :: base ∧ s'.heap.object? c = some o ∧ o.Records pairs ∧ s.heap.cell? c = none
  others : ∀ c cell, s.heap.cell? c = some cell → s'.heap.cell? c = some cell

/-- The object is made of the topmost values, unless there are too few or the run has come to a limit. -/
theorem ensures_makeObject (keys : List Name) (node : NodeId) (fail : EvalError → State → Prop)
    (hlimit : ∀ n r, fail (.ofFault (.timeout n)) r)
    (hfail : s.stash.length < keys.length → ∀ r, fail (.ofFault .stashUnderflow) r) :
    Ensures (execute p (.instr (.makeObject keys node))) { s with agenda := b } (fun _ s' =>
      keys.length ≤ s.stash.length ∧
        MakesObject ((keys.map p.nameText).zip (s.stash.take keys.length).reverse) (s.stash.drop keys.length) b s s')
      fail := by
  unfold execute
  rw [ensures_bind]
  refine ensures_tick (fun steps readings => ?_) fun _ _ _ => hlimit _ _
  dsimp only
  unfold execInstr
  rw [ensures_bind, ensures_popN]
  split
  next hle =>
    refine ⟨hle, rfl, ⟨⟨s.heap.cells.size⟩, _, rfl, ?_, Object.records_ofPairs _, Array.getElem?_size⟩,
      fun c cell hcell => ?_⟩
    · exact Heap.object?_of_cell? Array.getElem?_push_size
    · obtain ⟨hlt, -⟩ := Array.getElem?_eq_some_iff.mp hcell
      exact (Array.getElem?_push_lt hlt).trans (Array.getElem?_eq_getElem hlt ▸ hcell)
  next hlt => exact hfail (Nat.lt_of_not_le hlt) _

/-- An object literal has its properties evaluated first. -/
theorem scheduled_of_literal {id : NodeId} {properties : List (Name × NodeId)}
    (hkind : p.tree.kind? id = some (.objectLiteral properties)) (hagenda : s.agenda = .node id :: b)
    (hrun : advance p s = .running s') :
    s'.agenda = (properties.map Prod.snd).map Item.node ++ .instr (.makeObject (properties.map Prod.fst) id) :: b ∧
      s'.stash = s.stash := by
  obtain ⟨hagenda', -, hstash⟩ := (move_of_advance hagenda hrun).plain_node hkind rfl fun _ h => by cases h
  rw [kindItems, if_neg (List.append_ne_nil_of_right_ne_nil _ (List.cons_ne_nil _ _))] at hstash
  refine ⟨?_, hstash.eq⟩
  rw [hagenda', kindItems, List.map_map, List.append_assoc]
  rfl

/-- **Objects keep the order in which their keys were set.**  Setting properties of a fresh object one after another
makes an object that records them.  So does every object literal, of its keys and as many values from the stash.
When the properties of a literal in a well-placed tree have been evaluated, without invoking a continuation, those are
their values, which have come onto the stash one after another. -/
theorem objects_keep_insertion_order (t : Tree) (config : Config) (hosts : List EmbeddedFunction) (output : Output)
    (clock : Nat → Nat) (rule : PauseRule σ) (memory : σ) :
    let m := build t config hosts output clock rule memory
    (∀ pairs : List (String × Value),
      Object.Records pairs (pairs.foldl (fun o pair => o.set pair.1 pair.2) Object.empty)) ∧
    (∀ (s s' : State) (keys : List Name) (node : NodeId) (b : Agenda),
      s.agenda = .instr (.makeObject keys node) :: b → advance m.setting s = .running s' →
      keys.length ≤ s.stash.length ∧
        MakesObject ((keys.map m.setting.nameText).zip (s.stash.take keys.length).reverse)
          (s.stash.drop keys.length) b s s') ∧
    (t.WellPlaced → ∀ (s s₁ s₂ : State) (id : NodeId) (properties : List (Name × NodeId)) (b : Agenda) (n : Nat),
      m.Reaches s → s.agenda = .node id :: b → t.kind? id = some (.objectLiteral properties) →
      advance m.setting s = .running s₁ →
      Evaluates m.setting (.instr (.makeObject (properties.map Prod.fst) id) :: b) n s₁ s₂ →
      ∃ vs, InTurn m.setting (.instr (.makeObject (properties.map Prod.fst) id) :: b) (properties.map Prod.snd) vs
          s₁ s₂ ∧
        ((advance m.setting s₂).isLimited = true ∨ ∃ s', advance m.setting s₂ = .running s' ∧
          MakesObject (((properties.map Prod.fst).map m.setting.nameText).zip vs) s.stash b s₂ s')) := by
  refine ⟨Object.records_ofPairs, fun s s' keys node b hagenda hrun => ?_, ?_⟩
  · exact (ensures_makeObject keys node (fun _ _ => True) (fun _ _ => trivial)
      fun _ _ => trivial).of_advance hagenda hrun
  · intro ht s s₁ s₂ id properties b n hs hagenda hkind hfirst hrun
    obtain ⟨hagenda₁, hstash₁⟩ := scheduled_of_literal hkind hagenda hfirst
    have hexpressions : ∀ c ∈ properties.map Prod.snd, t.isStatement c = false := fun c hc => ht.expression hkind hc
    obtain ⟨vs, hvs⟩ := inTurn_of_evaluates ht (endsScope_cons rfl b) hexpressions (hs.advance hfirst) hagenda₁ hrun
    refine ⟨vs, hvs, ?_⟩
    -- The values of the properties are on top of the stash.
    have hlength : vs.length = (properties.map Prod.fst).length := by
      rw [hvs.length_eq, List.length_map, List.length_map]
    have hstash : s₂.stash = vs.reverse ++ s.stash := by rw [hvs.stash, hstash₁]
    have htake : (s₂.stash.take (properties.map Prod.fst).length).reverse = vs := by
      rw [hstash, ← hlength, ← List.length_reverse, List.take_left, List.reverse_reverse]
    have hdrop : s₂.stash.drop (properties.map Prod.fst).length = s.stash := by
      rw [hstash, ← hlength, ← List.length_reverse, List.drop_left]
    have hfits : ¬ s₂.stash.length < (properties.map Prod.fst).length := by
      rw [hstash, List.length_append, List.length_reverse]
      omega
    have hmade := advance_of_ensures ((ensures_makeObject (p := (build t config hosts output clock rule memory).setting)
      (properties.map Prod.fst) id (fun e _ => e.fault.isResource = true) (fun _ _ => rfl)
      fun hlt => absurd hlt hfits).mono (fun _ _ h => h.2) fun _ _ h => h) hrun.agenda
    rwa [htake, hdrop] at hmade

end

end Machine

/-- A program that makes an object of three properties, two of them under one key. -/
def Tree.repeating : Tree where
  names := ⟨#["", "a", "b"]⟩
  nodes := #[⟨.literal (.bool true), .dummy⟩, ⟨.literal (.bool false), .dummy⟩, ⟨.literal .null, .dummy⟩,
    ⟨.objectLiteral [(⟨1⟩, ⟨0⟩), (⟨2⟩, ⟨1⟩), (⟨1⟩, ⟨2⟩)], .dummy⟩, ⟨.expressionStatement ⟨3⟩, .dummy⟩,
    ⟨.program [⟨4⟩], .dummy⟩]
  root := ⟨5⟩
  accepted := by decide

def State.isAt (id : NodeId) (s : State) : Bool :=
  match s.agenda with
  | .node id' :: _ => id' == id
  | _ => false

theorem State.exists_of_isAt {id : NodeId} {s : State} (h : s.isAt id = true) : ∃ b, s.agenda = .node id :: b := by
  unfold isAt at h
  split at h
  next id' b hagenda => exact ⟨b, eq_of_beq h ▸ hagenda⟩
  next => cases h

namespace Machine

theorem objects_keep_insertion_order_repeated :
    let m := build .repeating .standard [] default (fun _ => 0) .never ()
    Tree.repeating.WellPlaced ∧ ∃ (s s₁ s₂ s' : State) (b : Agenda) (vs : List Value),
      m.Reaches s ∧ s.agenda = .node ⟨3⟩ :: b ∧ advance m.setting s = .running s₁ ∧
        Evaluates m.setting (.instr (.makeObject [⟨1⟩, ⟨2⟩, ⟨1⟩] ⟨3⟩) :: b) 3 s₁ s₂ ∧
        InTurn m.setting (.instr (.makeObject [⟨1⟩, ⟨2⟩, ⟨1⟩] ⟨3⟩) :: b) [⟨0⟩, ⟨1⟩, ⟨2⟩] vs s₁ s₂ ∧
        advance m.setting s₂ = .running s' ∧
        MakesObject (["a", "b", "a"].zip vs) s.stash b s₂ s' ∧
        MakesObject (["a", "b", "a"].zip (s₂.stash.take 3).reverse) (s₂.stash.drop 3) b s₂ s' := by
  intro m
  have ht : Tree.repeating.WellPlaced := by decide
  -- Where the program is, and that it has not ended, is found out by running it.
  have hat : (travel m.setting 2 m.state).state.isAt ⟨3⟩ = true := by decide +kernel
  have hrunning : ∀ k ≤ 7, (travel m.setting k m.state).isRunning = true := by decide +kernel
  have hrun : ∀ k ≤ 7, travel m.setting k m.state = .running (travel m.setting k m.state).state := fun k hk =>
    Progress.eq_running (hrunning k hk)
  have hadvance : ∀ k ≤ 6, advance m.setting (travel m.setting k m.state).state =
      .running (travel m.setting (k + 1) m.state).state := fun k hk => by
    rw [← hrun (k + 1) (by omega), ← travel_one]
    exact (travelBy_add 1 (hrun k (by omega))).symm
  obtain ⟨b, hagenda⟩ := State.exists_of_isAt hat
  obtain ⟨hagenda₁, -⟩ := scheduled_of_literal rfl hagenda (hadvance 2 (by decide))
  have hfirst := evaluates_literal rfl hagenda₁ (hadvance 3 (by decide))
  have hsecond := evaluates_literal rfl hfirst.agenda (hadvance 4 (by decide))
  have hthird := evaluates_literal rfl hsecond.agenda (hadvance 5 (by decide))
  have hevaluates := (hfirst.trans hsecond (List.suffix_cons _ _)).trans hthird (List.suffix_cons _ _)
  have hreaches : m.Reaches (travel m.setting 2 m.state).state := (reaches_start m).travel (hrun 2 (by decide))
  have hkeys : [⟨1⟩, ⟨2⟩, ⟨1⟩].map m.setting.nameText = ["a", "b", "a"] := by decide +kernel
  rw [← hkeys]
  have hobjects := objects_keep_insertion_order .repeating .standard [] default (fun _ => 0) .never ()
  obtain ⟨vs, hvs, hmade⟩ := hobjects.2.2 ht _ _ _ _ _ _ _ hreaches hagenda rfl (hadvance 2 (by decide)) hevaluates
  refine ⟨ht, _, _, _, _, b, vs, hreaches, hagenda, hadvance 2 (by decide), hevaluates, hvs,
    hadvance 6 (by decide), ?_, (hobjects.2.1 _ _ _ _ _ hevaluates.agenda (hadvance 6 (by decide))).2⟩
  obtain hlimited | ⟨s', hs', hmade⟩ := hmade
  · rw [hadvance 6 (by decide)] at hlimited
    cases hlimited
  · obtain rfl := Progress.running.inj ((hadvance 6 (by decide)).symm.trans hs')
    exact hmade

end Machine

end ExplicitControl
