import ExplicitControl.Proofs.Above
import ExplicitControl.Proofs.CallDepth
import Mathlib.Logic.Relation

/-!
# Calls in tail position need no room

A call that is made when the end of a call comes next leaves that end to serve for both, so neither the calls
nor the work from there on grows.  That a call is made in this situation whenever it is the last thing that its
function does follows from the tidiness of pending work: behind every function comes the end of its call.  A
chain of such calls, of whatever length, runs over the same work and at the same depth.
-/

namespace ExplicitControl

/-! ## 1. Ends of calls in a row -/

namespace Agenda

/-- Two ends of calls that have as many others behind them, in the same work, are one. -/
theorem eq_of_closers {a b c : Agenda} (ha : a <:+ c) (hb : b <:+ c) (hends : a.endsCall = true)
    (hends' : b.endsCall = true) (hclosers : a.closers = b.closers) : a = b := by
  have nested : ∀ {a b : Agenda}, a <:+ b → b.endsCall = true → a.closers = b.closers → a = b := by
    rintro a b ⟨more, rfl⟩ hends hclosers
    cases more with
    | nil => rfl
    | cons item more =>
      obtain ⟨env, rest, heq⟩ := endsCall_iff.mp hends
      rw [List.cons_append, List.cons.injEq] at heq
      obtain ⟨rfl, -⟩ := heq
      rw [List.cons_append, closers_cons, closers_append] at hclosers
      exact absurd hclosers (by
        show closers a ≠ closers more + closers a + 1
        omega)
  obtain h | h := List.suffix_or_suffix_of_suffix ha hb
  · exact nested h hends' hclosers
  · exact (nested h hends hclosers.symm).symm

/-- In front of the end of a call, the way is clear only through a call marker. -/
theorem mem_marker_of_clear {b : Agenda} (hends : b.endsCall = true) (a : Agenda) (h : isClear (a ++ b) = true) :
    .instr (.marker .call) ∈ a := by
  obtain ⟨env, rest, rfl⟩ := endsCall_iff.mp hends
  exact mem_marker_of_isClear h

/-- The same, with one more item in between. -/
theorem mem_marker_of_clear_cons {b : Agenda} (hends : b.endsCall = true) {last : Item}
    (hlast : last.isQuiet = true) (a : Agenda) (h : isClear (a ++ last :: b) = true) :
    .instr (.marker .call) ∈ a := by
  rw [List.append_cons] at h
  obtain h | h := List.mem_append.mp (mem_marker_of_clear hends _ h)
  · exact h
  · rw [List.mem_singleton] at h
    rw [← h] at hlast
    cases hlast

end Agenda

/-! ## 2. Applications -/

/-- The function of the program that is entered when a value is called.  A function that a continuation is
captured for is entered as well. -/
def Value.applied? : Value → List Value → Option Closure
  | .closure _ f, _ => some f
  | .callCc, [.closure _ f] => some f
  | _, _ => none

def State.behind (s : State) : Agenda :=
  s.agenda.tail

def State.Applies (s : State) (f : Closure) : Prop :=
  ∃ (args : List Value) (callee : Value) (receiver : Option Value) (node : NodeId) (rest : Agenda)
    (stash : Stash), s.agenda = .instr (.apply args.length receiver.isSome node) :: rest ∧
      s.stash = args.reverse ++ callee :: (receiver.toList ++ stash) ∧ callee.applied? args = some f

namespace Machine

open Agenda

variable {p : Setting} {limit : Nat} {s s' : State} {f : Closure}

/-- A function that is applied is entered, in front of the end of its call. -/
theorem entered_of_applies (hs : s.Applies f) (h : advance p s = .running s') :
    ∃ fname params code frame, p.tree.kind? f.node = some (.function fname params code) ∧
      s'.agenda = bodyItems code ++ s.behind.closing s.env ∧
      s'.calls = (if s.behind.endsCall then s.calls.pop else s.calls).add frame := by
  obtain ⟨args, callee, receiver, node, rest, stash, hagenda, hstash, happlied⟩ := hs
  rw [State.behind, hagenda, List.tail_cons]
  have hcalled := (move_of_advance hagenda h).called hstash
  unfold Value.applied? at happlied
  split at happlied
  · cases happlied
    obtain hcall | ⟨hcallee, -⟩ := hcalled
    · obtain ⟨fname, params, code, frame, hkind, hagenda', -, hcalls, -⟩ := hcall.entered
      exact ⟨fname, params, code, frame, hkind, hagenda', hcalls⟩
    · cases hcallee
  · cases happlied
    obtain hcall | ⟨-, ⟨function, hargs, hcall⟩ | ⟨hargs, -⟩⟩ := hcalled
    · exact absurd rfl hcall.ne_callCc
    · cases hargs
      obtain ⟨fname, params, code, frame, hkind, hagenda', -, hcalls, -⟩ := hcall.entered
      exact ⟨fname, params, code, frame, hkind, hagenda', hcalls⟩
    · cases hargs
  · cases happlied

/-- In front of the end of a call, a function is entered at the same depth and over the same work. -/
theorem entered_of_endsCall (hs : s.Applies f) (hends : s.behind.endsCall = true)
    (hdepth : 0 < s.calls.depth) (h : advance p s = .running s') :
    s'.calls.depth = s.calls.depth ∧
      ∃ fname params code, p.tree.kind? f.node = some (.function fname params code) ∧
        s'.agenda = bodyItems code ++ s.behind := by
  obtain ⟨fname, params, code, frame, hkind, hagenda, hcalls⟩ := entered_of_applies hs h
  rw [closing_of_endsCall hends] at hagenda
  rw [hends, if_pos rfl] at hcalls
  refine ⟨?_, fname, params, code, hkind, hagenda⟩
  rw [hcalls]
  show (s.calls.frames.pop.push frame).size = s.calls.frames.size
  rw [Array.size_push, Array.size_pop]
  exact Nat.sub_add_cancel hdepth

/-! ## 3. Runs over the same work -/

/-- From `s` the machine comes to `s'` in `n` items.  Until then it has more than `height` items pending, and
invokes no continuation. -/
structure StaysAbove (p : Setting) (height n : Nat) (s s' : State) : Prop where
  run : travel p n s = .running s'
  inside : ∀ j < n, ∀ r, travel p j s = .running r → height < r.agenda.length ∧ ∀ k v, ¬r.Invokes k v

/-- The machine carries out the next item and all the work that it puts in front, but for the last item. -/
def Descends (p : Setting) (s s' : State) : Prop :=
  ∃ s₁ n, advance p s = .running s₁ ∧ StaysAbove p s.agenda.length n s₁ s' ∧ s'.agenda.length ≤ s.agenda.length

variable {σ : Type} {m : Machine σ} {b : Agenda}

theorem Reaches.balanced {t : Tree} {config : Config} {hosts : List EmbeddedFunction} {output : Output}
    {clock : Nat → Nat} {rule : PauseRule σ} {memory : σ}
    (hs : (build t config hosts output clock rule memory).Reaches s) : s.Balanced t config.maxCallDepth := by
  obtain ⟨n, hn⟩ := hs
  have hbalanced := runThrough_balanced t config hosts output clock rule memory n
  rw [hn] at hbalanced
  exact hbalanced

theorem Reaches.tidy {t : Tree} {config : Config} {hosts : List EmbeddedFunction} {output : Output}
    {clock : Nat → Nat} {rule : PauseRule σ} {memory : σ}
    (hs : (build t config hosts output clock rule memory).Reaches s) : s.Tidy := by
  have start : (build t config hosts output clock rule memory).state.Tidy :=
    ⟨⟨fun h => (by cases h), fun h => (by cases h), trivial⟩, fun _ h => absurd h (Array.not_mem_empty _)⟩
  refine hs.induct start fun s s' item rest _ htidy hagenda _ hmove => hmove.tidy ⟨?_, htidy.snapshots⟩
  exact htidy.agenda.suffix (hagenda ▸ List.suffix_cons item rest)

/-- One step in front of `b`. -/
theorem suffix_advance (ht : p.tree.WellPlaced) (hb : b.endsScope = false ∨ b.endsCall = true)
    (hclear : ∀ a, isClear (a ++ b) = true → .instr (.marker .call) ∈ a) (hbalanced : s.Balanced p.tree limit)
    (hs : b <:+ s.agenda) (hlength : b.length < s.agenda.length) (hnone : ∀ k v, ¬s.Invokes k v)
    (h : advance p s = .running s') : b <:+ s'.agenda := by
  obtain ⟨a, ha⟩ := hs
  cases a with
  | nil => exact absurd (congrArg List.length ha) (Nat.ne_of_lt hlength)
  | cons item a =>
    have hplaced := hbalanced.now.placed ht
    rw [← ha] at hplaced
    have hmove := move_of_advance ha.symm h
    refine hmove.keeps hb rfl (fun hwork => hclear a (hplaced.1 hwork)) ?_
    show ∀ k v, ¬State.Invokes { s with agenda := item :: a ++ b } k v
    rw [ha]
    exact hnone

/-- Work that stays above `b` leaves it where it is. -/
theorem suffix_stays (ht : p.tree.WellPlaced) (hb : b.endsScope = false ∨ b.endsCall = true)
    (hclear : ∀ a, isClear (a ++ b) = true → .instr (.marker .call) ∈ a) {n : Nat}
    (hbalanced : s.Balanced p.tree limit) (hs : b <:+ s.agenda) (h : StaysAbove p b.length n s s') :
    b <:+ s'.agenda := by
  obtain ⟨hrun, hinside⟩ := h
  induction n generalizing s with
  | zero =>
    cases hrun
    exact hs
  | succ n ih =>
    rw [travel_succ] at hrun
    cases ha : advance p s with
    | running s₁ =>
      rw [ha] at hrun
      obtain ⟨hlength, hnone⟩ := hinside 0 (Nat.succ_pos n) s rfl
      refine ih (balanced_advance hbalanced ha)
        (suffix_advance ht hb hclear hbalanced hs hlength hnone ha) hrun fun j hj r hr => ?_
      refine hinside (j + 1) (Nat.succ_lt_succ hj) r ?_
      rw [travel_succ, ha]
      exact hr
    | finished v s₁ => rw [ha] at hrun; cases hrun
    | failed e s₁ => rw [ha] at hrun; cases hrun

/-- A node that only puts work in front leads to the last item of that work, over the same end of a call. -/
theorem agenda_of_descends (ht : p.tree.WellPlaced) (hbalanced : s.Balanced p.tree limit) {id : NodeId}
    {kind : NodeKind} (hkind : p.tree.kind? id = some kind) (hopened : p.tree.opened kind = [])
    (hpadding : kind.padding = []) (hreturn : ∀ argument, kind ≠ .returnStatement argument) (first : List Item)
    {last : Item} (hitems : kindItems p id kind = first ++ [last]) (hlast : last.isQuiet = true) {a : Agenda}
    (hagenda : s.agenda = .node id :: a) (hends : a.endsCall = true) (h : Descends p s s') :
    s'.agenda = last :: a := by
  obtain ⟨s₁, n, hrun, hstays, hlength⟩ := h
  have hagenda₁ : s₁.agenda = first ++ last :: a := by
    rw [((move_of_advance hagenda hrun).plain_node hkind hopened hreturn).1, hitems, hpadding, List.nil_append,
      List.append_assoc]
    rfl
  have hb : endsScope (last :: a) = false := endsScope_cons (Item.not_isRestore_of_isQuiet hlast) a
  have hheight : s.agenda.length = (last :: a).length := by rw [hagenda]; rfl
  rw [hheight] at hstays hlength
  have hsuffix := suffix_stays ht (.inl hb) (mem_marker_of_clear_cons hends hlast)
    (balanced_advance hbalanced hrun) (hagenda₁ ▸ List.suffix_append _ _) hstays
  exact (hsuffix.eq_of_length_le hlength).symm

/-! ## 4. The last thing that a function does -/

end Machine

def NodeKind.arms : NodeKind → List NodeId
  | .conditional _ consequent alternate => [consequent, alternate]
  | .logical _ _ right => [right]
  | _ => []

namespace Machine

open Agenda

variable {σ : Type} {m : Machine σ} {p : Setting} {limit : Nat} {s s' : State} {f : Closure}

/-- The machine is about to evaluate an expression whose value is the value of the call that `s` makes: the body
of an arrow, or the argument of a `return` with nothing but the ends of blocks before the end of the function;
or it has come to an arm of such an expression. -/
inductive TailOf (p : Setting) (s : State) : State → Prop where
  | body {f : Closure} {fname : Option Name} {params : List Name} {e : NodeId} {s₁ : State}
      (happlies : s.Applies f) (hkind : p.tree.kind? f.node = some (.function fname params (.expression e)))
      (hrun : advance p s = .running s₁) : TailOf p s s₁
  /-- The `return` is one of the function that `s` has called: the call has not ended, and no other is live. -/
  | argument {f : Closure} {s₁ r r' : State} {n : Nat} {id e : NodeId} {a : Agenda} (happlies : s.Applies f)
      (hrun : advance p s = .running s₁) (hstays : StaysAbove p (s.behind.closing s.env).length n s₁ r)
      (hdepth : r.calls.depth = s₁.calls.depth) (hagenda : r.agenda = .node id :: a)
      (hkind : p.tree.kind? id = some (.returnStatement (some e))) (hposition : a.inTailPosition = true)
      (hreturn : advance p r = .running r') : TailOf p s r'
  | arm {r q r' : State} {id arm : NodeId} {kind : NodeKind} {a b : Agenda} (htail : TailOf p s r)
      (hagenda : r.agenda = .node id :: a) (hkind : p.tree.kind? id = some kind) (harms : kind.arms ≠ [])
      (htest : Descends p r q) (hrun : advance p q = .running r') (hnext : r'.agenda = .node arm :: b) :
      TailOf p s r'

/-- The call that `s` makes comes to a call in tail position, whose callee and arguments have been evaluated. -/
def TailCall (p : Setting) (s s' : State) : Prop :=
  ∃ (r : State) (id callee : NodeId) (args : List NodeId) (a : Agenda), TailOf p s r ∧
    r.agenda = .node id :: a ∧ p.tree.kind? id = some (.call callee args) ∧ Descends p r s'

theorem StaysAbove.reaches {n height : Nat} (hs : m.Reaches s) (h : StaysAbove m.setting height n s s') :
    m.Reaches s' :=
  hs.travel h.run

theorem Descends.reaches (hs : m.Reaches s) (h : Descends m.setting s s') : m.Reaches s' := by
  obtain ⟨s₁, n, hrun, hstays, -⟩ := h
  exact hstays.reaches (hs.advance hrun)

theorem TailOf.reaches (hs : m.Reaches s) (h : TailOf m.setting s s') : m.Reaches s' := by
  induction h with
  | body happlies hkind hrun => exact hs.advance hrun
  | argument happlies hrun hstays hdepth hagenda hkind hposition hreturn =>
    exact (hstays.reaches (hs.advance hrun)).advance hreturn
  | arm htail hagenda hkind harms htest hrun hnext ih => exact (htest.reaches ih).advance hrun

/-- The items of a call end with its application. -/
theorem exists_callItems (p : Setting) (id callee : NodeId) (args : List NodeId) :
    ∃ first hasReceiver, callItems p id callee args = first ++ [.instr (.apply args.length hasReceiver id)] := by
  unfold callItems
  split
  · exact ⟨_, true, by rw [← List.cons_append, ← List.cons_append]⟩
  · exact ⟨_, true, by rw [← List.cons_append, ← List.cons_append, ← List.cons_append]⟩
  · exact ⟨_, false, by rw [← List.cons_append]⟩

section

variable {t : Tree} {config : Config} {hosts : List EmbeddedFunction} {output : Output} {clock : Nat → Nat}
  {rule : PauseRule σ} {memory : σ}

/-- An expression in tail position is evaluated in front of the end of the call. -/
theorem agenda_of_tailOf (ht : t.WellPlaced) (hs : (build t config hosts output clock rule memory).Reaches s)
    {r : State} (h : TailOf (build t config hosts output clock rule memory).setting s r) :
    ∃ id, r.agenda = .node id :: s.behind.closing s.env := by
  have hends := endsCall_closing s.env s.behind
  induction h with
  | @body f fname params e s₁ happlies hkind hrun =>
    obtain ⟨fname', params', code, frame, hkind', hagenda, -⟩ := entered_of_applies happlies hrun
    rw [hkind] at hkind'
    cases hkind'
    exact ⟨e, hagenda⟩
  | @argument f s₁ r r' n id e a happlies hrun hstays hdepth hagenda hkind hposition hreturn =>
    obtain ⟨fname, params, code, frame, -, hagenda₁, -⟩ := entered_of_applies happlies hrun
    have hs₁ := hs.advance hrun
    have hr := hstays.reaches hs₁
    -- The `return` is in front of the end of the call, and ends one with as many others behind it.
    have hsuffix : s.behind.closing s.env <:+ r.agenda :=
      suffix_stays ht (.inr hends) (mem_marker_of_clear hends) hs₁.balanced
        (hagenda₁ ▸ List.suffix_append _ _) hstays
    have hclosers : (s.behind.closing s.env).closers = a.closers := by
      have hequal := hs₁.balanced.now.equal ht
      have hequal' := hr.balanced.now.equal ht
      rw [hagenda₁, closers_append, closers_bodyItems, Nat.zero_add] at hequal
      rw [hagenda, closers_cons] at hequal'
      exact (hequal.trans hdepth.symm).trans hequal'.symm
    rw [hagenda] at hsuffix
    have hinside : s.behind.closing s.env <:+ a := by
      obtain heq | hsuffix := List.suffix_cons_iff.mp hsuffix
      · rw [heq] at hends
        cases hends
      · exact hsuffix
    have hclear : isClear a = true := by
      have hplaced := hr.balanced.now.placed ht
      rw [hagenda] at hplaced
      exact hplaced.1 (Tree.isStatement_of_kind hkind)
    have htidy : a.Tidy := hr.tidy.agenda.suffix (hagenda ▸ List.suffix_cons _ _)
    have heq : unwindCall a = s.behind.closing s.env :=
      eq_of_closers (unwindCall_suffix a) hinside
        (htidy.endsCall_unwindCall (mem_marker_of_inTailPosition hposition)) hends
        ((closers_unwindCall hclear).trans hclosers.symm)
    refine ⟨e, ?_⟩
    cases move_of_advance hagenda hreturn with
    | plain hkind' hopened hgoes hagenda' hstill =>
      cases hkind.symm.trans hkind'
      exact absurd rfl (hgoes _)
    | scope hkind' hopened hagenda' hcalls hsnapshots hmade hnames =>
      cases hkind.symm.trans hkind'
      exact absurd rfl hopened
    | returned hkind' hagenda' hstash hstill =>
      cases hkind.symm.trans hkind'
      rw [hagenda', if_pos hposition, heq]
      rfl
  | @arm r q r' id arm kind a b htail hagenda hkind harms htest hrun hnext ih =>
    obtain ⟨id', hr⟩ := ih
    rw [hagenda, List.cons.injEq] at hr
    obtain ⟨-, rfl⟩ := hr
    have hbalanced := (htail.reaches hs).balanced
    cases kind with
    | conditional test consequent alternate =>
      have hq := agenda_of_descends ht hbalanced hkind rfl rfl (fun _ h => by cases h)
        [.node test] rfl rfl hagenda hends htest
      obtain ⟨⟨items, hitems, hagenda'⟩, -⟩ := (move_of_advance hq hrun).offered rfl
      obtain rfl | rfl : items = [.node consequent] ∨ items = [.node alternate] := by
        simpa [Instr.offers] using hitems
      · exact ⟨consequent, hagenda'⟩
      · exact ⟨alternate, hagenda'⟩
    | logical op left right =>
      have hq := agenda_of_descends ht hbalanced hkind rfl rfl (fun _ h => by cases h)
        [.node left] rfl rfl hagenda hends htest
      obtain ⟨⟨items, hitems, hagenda'⟩, -⟩ := (move_of_advance hq hrun).offered rfl
      have hagenda' : r'.agenda = items ++ closing s.env s.behind := hagenda'
      obtain rfl | rfl : items = [] ∨ items = [.node right] := by
        simpa [Instr.offers] using hitems
      · -- The left operand has decided, and nothing is evaluated.
        rw [hnext, List.nil_append] at hagenda'
        rw [← hagenda'] at hends
        cases hends
      · exact ⟨right, hagenda'⟩
    | _ => exact absurd rfl harms

/-- A call in tail position is applied in front of the end of the call. -/
theorem agenda_of_tailCall (ht : t.WellPlaced) (hs : (build t config hosts output clock rule memory).Reaches s)
    (h : TailCall (build t config hosts output clock rule memory).setting s s') :
    ∃ arity hasReceiver id, s'.agenda = .instr (.apply arity hasReceiver id) :: s.behind.closing s.env := by
  obtain ⟨r, id, callee, args, a, htail, hagenda, hkind, hdown⟩ := h
  obtain ⟨id', hr⟩ := agenda_of_tailOf ht hs htail
  rw [hagenda, List.cons.injEq] at hr
  obtain ⟨-, rfl⟩ := hr
  obtain ⟨first, hasReceiver, hitems⟩ := exists_callItems
    (build t config hosts output clock rule memory).setting id callee args
  exact ⟨args.length, hasReceiver, id, agenda_of_descends ht (htail.reaches hs).balanced hkind rfl rfl
    (fun _ h => by cases h) first hitems rfl hagenda (endsCall_closing s.env s.behind) hdown⟩

end

/-! ## 5. Whatever has happened before -/

/-- The expression is in tail position in front of the work `a`, wherever control has come from. -/
inductive InTail (m : Machine σ) : NodeId → Agenda → Prop where
  | body {s : State} {f : Closure} {fname : Option Name} {params : List Name} {e : NodeId} (hs : m.Reaches s)
      (happlies : s.Applies f) (hkind : m.setting.tree.kind? f.node = some (.function fname params (.expression e))) :
      InTail m e (s.behind.closing s.env)
  | argument {r : State} {id e : NodeId} {a : Agenda} (hr : m.Reaches r) (hagenda : r.agenda = .node id :: a)
      (hkind : m.setting.tree.kind? id = some (.returnStatement (some e))) (hposition : a.inTailPosition = true) :
      InTail m e (Agenda.unwindCall a)
  | arm {id arm : NodeId} {kind : NodeKind} {a : Agenda} (htail : InTail m id a)
      (hkind : m.setting.tree.kind? id = some kind) (harm : arm ∈ kind.arms) : InTail m arm a

end Machine

/-- The node whose value is what the instruction leaves, by itself or by the work that it puts in front. -/
def Item.finishes : Item → Option NodeId
  | .instr (.apply _ _ id) | .instr (.branch _ _ id) | .instr (.logical _ _ id) => some id
  | _ => none

/-- Whatever finishes a node is in front of the work that the node has been evaluated in front of. -/
def Agenda.Stems (evaluated : NodeId → Agenda → Prop) : Agenda → Prop
  | [] => True
  | item :: rest => (∀ id ∈ item.finishes, evaluated id rest) ∧ Stems evaluated rest

structure State.Stems (evaluated : NodeId → Agenda → Prop) (s : State) : Prop where
  agenda : s.agenda.Stems evaluated
  snapshots : ∀ k ∈ s.snapshots, k.agenda.Stems evaluated

namespace Agenda

variable {evaluated : NodeId → Agenda → Prop} {a b : Agenda}

theorem Stems.suffix (ha : a.Stems evaluated) (hb : b <:+ a) : b.Stems evaluated := by
  obtain ⟨dropped, rfl⟩ := hb
  induction dropped with
  | nil => exact ha
  | cons item dropped ih => exact ih ha.2

theorem Stems.append {items : List Item} (ha : a.Stems evaluated) (hitems : ∀ item ∈ items, item.finishes = none) :
    Stems evaluated (items ++ a) := by
  induction items with
  | nil => exact ha
  | cons item items ih =>
    rw [List.forall_mem_cons] at hitems
    refine ⟨fun id hid => ?_, ih hitems.2⟩
    rw [hitems.1] at hid
    cases hid

theorem Stems.cons (ha : a.Stems evaluated) {item : Item} (hitem : item.finishes = none) :
    Stems evaluated (item :: a) :=
  ⟨fun id hid => (by rw [hitem] at hid; cases hid), ha⟩

theorem finishes_ofStatements (ids : List NodeId) : ∀ item ∈ ofStatements ids, item.finishes = none :=
  forall_mem_ofStatements (fun _ _ => rfl) rfl rfl

end Agenda

namespace Machine

open Agenda

variable {σ : Type} {m : Machine σ} {p : Setting} {s s' : State} {evaluated : NodeId → Agenda → Prop}

theorem finishes_map_node (ids : List NodeId) : ∀ item ∈ ids.map Item.node, item.finishes = none := by
  intro item hitem
  obtain ⟨id, -, rfl⟩ := List.mem_map.mp hitem
  rfl

/-- If any item of a node finishes one, it is the last, and finishes that node. -/
theorem kindItems_cases (p : Setting) (id : NodeId) (kind : NodeKind) :
    (∀ item ∈ kindItems p id kind, item.finishes = none) ∨
      ∃ first last, kindItems p id kind = first ++ [last] ∧ (∀ item ∈ first, item.finishes = none) ∧
        last.finishes = some id ∧ p.tree.opened kind = [] ∧ kind.padding = [] := by
  cases kind with
  | program body => exact .inl (finishes_ofStatements body)
  | block body => exact .inl (finishes_ofStatements body)
  | ifStatement test consequent alternate => exact .inr ⟨[.node test], _, rfl, by simp [Item.finishes], rfl, rfl, rfl⟩
  | logical op left right => exact .inr ⟨[.node left], _, rfl, by simp [Item.finishes], rfl, rfl, rfl⟩
  | conditional test consequent alternate => exact .inr ⟨[.node test], _, rfl, by simp [Item.finishes], rfl, rfl, rfl⟩
  | call callee args =>
    have after := finishes_map_node args
    right
    show ∃ first last, callItems p id callee args = first ++ [last] ∧ _
    unfold callItems
    split
    next object name _ =>
      exact ⟨.node object :: .instr (.methodLookup (some name) callee) :: args.map Item.node, _, rfl,
        List.forall_mem_cons.mpr ⟨rfl, List.forall_mem_cons.mpr ⟨rfl, after⟩⟩, rfl, rfl, rfl⟩
    next object key _ =>
      exact ⟨.node object :: .node key :: .instr (.methodLookup none callee) :: args.map Item.node, _, rfl,
        List.forall_mem_cons.mpr ⟨rfl, List.forall_mem_cons.mpr ⟨rfl, List.forall_mem_cons.mpr ⟨rfl, after⟩⟩⟩,
        rfl, rfl, rfl⟩
    next =>
      exact ⟨.node callee :: args.map Item.node, _, rfl, List.forall_mem_cons.mpr ⟨rfl, after⟩, rfl, rfl, rfl⟩
  | forLoop init test update body =>
    refine .inl ?_
    cases init <;> cases test <;> simp [kindItems, forItems, loopTest, Item.finishes]
  | arrayLiteral elements =>
    exact .inl (List.forall_mem_append.mpr ⟨finishes_map_node elements, List.forall_mem_singleton.mpr rfl⟩)
  | objectLiteral properties =>
    refine .inl (List.forall_mem_append.mpr ⟨fun item hitem => ?_, List.forall_mem_singleton.mpr rfl⟩)
    obtain ⟨property, -, rfl⟩ := List.mem_map.mp hitem
    rfl
  | member object property => cases property <;> exact .inl (by simp [kindItems, keyItem, Item.finishes])
  | memberAssignment object property value =>
    cases property <;> exact .inl (by simp [kindItems, keyItem, Item.finishes])
  | _ => exact .inl (by simp [kindItems, Item.finishes])

theorem finishes_simple {i : Instr} (h : i.isSimple = true) : (Item.instr i).finishes = none := by
  cases i <;> first | rfl | cases h

theorem finishes_padding (kind : NodeKind) : ∀ item ∈ kind.padding, item.finishes = none := by
  intro item hitem
  rw [eq_of_mem_padding hitem]
  rfl

theorem finishes_offers {i : Instr} {items : List Item} (h : items ∈ i.offers) :
    ∀ item ∈ items, item.finishes = none := by
  intro item hitem
  cases offered_of_mem h hitem with
  | simple h => exact finishes_simple h
  | again h => cases i <;> first | rfl | cases h
  | _ => rfl

theorem finishes_bodyItems (code : FunctionBody) : ∀ item ∈ bodyItems code, item.finishes = none := by
  intro item hitem
  cases bodyPart_of_mem item hitem with
  | simple h => exact finishes_simple h
  | _ => rfl

theorem Stems.closing {env : Env} {a : Agenda} (ha : a.Stems evaluated) : (a.closing env).Stems evaluated := by
  obtain ⟨-, -, hclosing⟩ | ⟨env', closesCall, rest, rfl, -, hclosing⟩ := closing_cases env a
  · rw [hclosing]
    exact ha.cons rfl
  · rw [hclosing]
    exact Agenda.Stems.cons ha.2 rfl

/-- What a node is evaluated in front of is what its last item is in front of. -/
theorem Reschedules.stems {env : Env} {a b : Agenda} {item : Item} (h : Reschedules p env a item b)
    (ha : a.Stems evaluated)
    (hitem : ∀ id, item = .node id → evaluated id a) : b.Stems evaluated := by
  cases h with
  | @plain id kind hkind hopened hgoes =>
    have hpadded := ha.append (finishes_padding kind)
    obtain hnone | ⟨first, last, hitems, hfirst, hlast, -, hpadding⟩ := kindItems_cases p id kind
    · exact hpadded.append hnone
    · rw [hitems, hpadding, List.nil_append, List.append_assoc]
      refine Agenda.Stems.append ?_ hfirst
      refine ⟨fun id' hid' => ?_, ha⟩
      rw [hlast] at hid'
      cases hid'
      exact hitem id rfl
  | @scope id kind hkind hopened =>
    have hpadded := ha.append (finishes_padding kind)
    obtain hnone | ⟨first, last, -, -, -, hnone, -⟩ := kindItems_cases p id kind
    · refine Agenda.Stems.append ?_ hnone
      unfold Agenda.opening
      split
      · exact hpadded
      · exact hpadded.cons rfl
    · exact absurd hnone hopened
  | @returned id argument hkind =>
    have hvalue : (returnItem argument).finishes = none := by cases argument <;> rfl
    split
    · exact (ha.suffix (unwindCall_suffix _)).cons hvalue
    · exact (ha.cons rfl).cons hvalue
  | offered hplain hoffered => exact ha.append (finishes_offers hoffered)
  | same => exact ha
  | reset => exact ha.suffix (unwindCall_suffix _)
  | reached htarget hsearch => exact ha.suffix (suffix_of_searchLoop_reached hsearch)
  | @stopped i target ending rest htarget hsearch =>
    have hrest := ha.suffix (suffix_of_searchLoop_scope hsearch)
    have hjump : (Item.instr i).finishes = none := by cases i <;> first | rfl | cases htarget
    obtain ⟨dropped, env', closesCall, -, rfl, -⟩ := eq_of_searchLoop_scope hsearch
    exact (Agenda.Stems.cons hrest.2 hjump).cons rfl
  | entered hkind => exact (Stems.closing ha).append (finishes_bodyItems _)

theorem Move.stems {item : Item} (h : Move p s s' item) (hs : s.Stems evaluated)
    (hitem : ∀ id, item = .node id → evaluated id s.agenda) : s'.Stems evaluated := by
  obtain ⟨hagenda, hsnapshots⟩ := h.keepsWork hs.agenda hs.snapshots fun b hb => hb.stems hs.agenda hitem
  exact ⟨hagenda, hsnapshots⟩

def Evaluated (m : Machine σ) (id : NodeId) (a : Agenda) : Prop :=
  ∃ r, m.Reaches r ∧ r.agenda = .node id :: a

section

variable {t : Tree} {config : Config} {hosts : List EmbeddedFunction} {output : Output} {clock : Nat → Nat}
  {rule : PauseRule σ} {memory : σ}

theorem Reaches.stems (hs : (build t config hosts output clock rule memory).Reaches s) :
    s.Stems (Evaluated (build t config hosts output clock rule memory)) := by
  refine hs.induct ⟨⟨fun _ h => (by cases h), trivial⟩, fun _ h => absurd h (Array.not_mem_empty _)⟩
    fun s s' item rest hr hstems hagenda _ hmove => hmove.stems ⟨?_, hstems.snapshots⟩ ?_
  · exact hstems.agenda.suffix (hagenda ▸ List.suffix_cons item rest)
  · rintro id rfl
    exact ⟨s, hr, hagenda⟩

/-- In front of an expression in tail position is the end of a call. -/
theorem InTail.endsCall {id : NodeId} {a : Agenda}
    (h : InTail (build t config hosts output clock rule memory) id a) : a.endsCall = true := by
  induction h with
  | @body s f fname params e hs happlies hkind => exact endsCall_closing s.env s.behind
  | @argument r id e a hr hagenda hkind hposition =>
    have htidy : a.Tidy := hr.tidy.agenda.suffix (hagenda ▸ List.suffix_cons _ _)
    exact htidy.endsCall_unwindCall (mem_marker_of_inTailPosition hposition)
  | arm htail hkind harm ih => exact ih

/-! ## 6. Chains -/

theorem TailOf.applies {r : State} (h : TailOf p s r) : ∃ f, s.Applies f := by
  induction h with
  | body happlies hkind hrun => exact ⟨_, happlies⟩
  | argument happlies hrun hstays hdepth hagenda hkind hposition hreturn => exact ⟨_, happlies⟩
  | arm htail hagenda hkind harms htest hrun hnext ih => exact ih

theorem TailCall.applies (h : TailCall p s s') : ∃ f, s.Applies f := by
  obtain ⟨r, _, _, _, _, htail, -⟩ := h
  exact htail.applies

/-- The calls are as many as end behind an application. -/
theorem depth_of_apply (ht : t.WellPlaced) (hs : (build t config hosts output clock rule memory).Reaches s)
    {arity : Nat} {hasReceiver : Bool} {id : NodeId} {a : Agenda}
    (hagenda : s.agenda = .instr (.apply arity hasReceiver id) :: a) : s.calls.depth = a.closers := by
  have hequal := hs.balanced.now.equal ht
  rw [hagenda, closers_cons] at hequal
  exact hequal.symm

theorem TailCall.reaches (hs : m.Reaches s) (h : TailCall m.setting s s') : m.Reaches s' := by
  obtain ⟨r, id, callee, args, a, htail, -, -, hdown⟩ := h
  exact hdown.reaches (htail.reaches hs)

/-- A chain of calls in tail position stays over the same work and at the same depth. -/
theorem chain_of_tailCalls (ht : t.WellPlaced) (hs : (build t config hosts output clock rule memory).Reaches s)
    (hends : s.behind.endsCall = true)
    (h : Relation.ReflTransGen (TailCall (build t config hosts output clock rule memory).setting) s s') :
    (build t config hosts output clock rule memory).Reaches s' ∧ s'.behind = s.behind ∧
      s'.calls.depth = s.calls.depth := by
  induction h with
  | refl => exact ⟨hs, rfl, rfl⟩
  | @tail r r' _ hcall ih =>
    obtain ⟨hr, hbehind, hdepth⟩ := ih
    obtain ⟨f, args, callee, receiver, node, rest, stash, hagenda, -⟩ := hcall.applies
    obtain ⟨arity, hasReceiver, id, hagenda'⟩ := agenda_of_tailCall ht hr hcall
    rw [hbehind, closing_of_endsCall hends] at hagenda'
    have hrest : rest = s.behind := by rw [← hbehind, State.behind, hagenda, List.tail_cons]
    refine ⟨hcall.reaches hr, by rw [State.behind, hagenda', List.tail_cons], ?_⟩
    rw [depth_of_apply ht (hcall.reaches hr) hagenda', ← hdepth, depth_of_apply ht hr hagenda, hrest]

end

/-- Tail calls need no room.  In every state that a run comes to, and in every captured continuation, no two items
that bring an environment back follow each other, and every call marker is directly followed by the end of a
call.  A function that is applied in front of the end of a call leaves the depth and all work from there on as
they are.  Every application that is pending is in front of the work that its call has been evaluated in front
of, and in front of an expression in tail position that work begins with the end of a call.  If the tree is
well-placed, a call in tail position is applied in front of the end of the call that it is the last of, and a
chain of such calls, of whatever length, runs at one depth over the same work. -/
theorem tail_calls_need_no_room (t : Tree) (config : Config) (hosts : List EmbeddedFunction) (output : Output)
    (clock : Nat → Nat) (rule : PauseRule σ) (memory : σ) :
    let m := build t config hosts output clock rule memory
    (∀ s, m.Reaches s → s.Tidy) ∧
      (∀ s s' f, m.Reaches s → s.Applies f → s.behind.endsCall = true → advance m.setting s = .running s' →
        s'.calls.depth = s.calls.depth ∧
          ∃ fname params code, t.kind? f.node = some (.function fname params code) ∧
            s'.agenda = bodyItems code ++ s.behind) ∧
      (∀ s, m.Reaches s → s.Stems (Evaluated m)) ∧
      (∀ id a, InTail m id a → a.endsCall = true) ∧
      (t.WellPlaced →
        (∀ s s', m.Reaches s → TailCall m.setting s s' →
          (s.behind.closing s.env).endsCall = true ∧ ∃ arity hasReceiver id,
            s'.agenda = .instr (.apply arity hasReceiver id) :: s.behind.closing s.env) ∧
        ∀ s s', m.Reaches s → s.behind.endsCall = true → Relation.ReflTransGen (TailCall m.setting) s s' →
          s'.behind = s.behind ∧ s'.calls.depth = s.calls.depth) := by
  refine ⟨fun s hs => hs.tidy, fun s s' f hs happlies hends h => ?_, fun s hs => hs.stems,
    fun id a h => h.endsCall, fun ht => ⟨fun s s' hs h => ⟨endsCall_closing _ _, agenda_of_tailCall ht hs h⟩,
      fun s s' hs hends h => (chain_of_tailCalls ht hs hends h).2⟩⟩
  -- The item that ends a call is pending, so there is a call for it.
  obtain ⟨env, rest, hbehind⟩ := endsCall_iff.mp hends
  have hmem : .instr (.restore env true) ∈ s.agenda :=
    List.mem_of_mem_tail (show _ ∈ s.behind by rw [hbehind]; exact List.mem_cons_self)
  exact entered_of_endsCall happlies hends (hs.balanced.now.depth_pos hmem rfl) h

end Machine

def Tree.nested : Tree where
  names := .initial
  nodes := #[⟨.literal (.bool true), .dummy⟩, ⟨.function none [] (.expression ⟨0⟩), .dummy⟩, ⟨.call ⟨1⟩ [], .dummy⟩,
    ⟨.function none [] (.expression ⟨2⟩), .dummy⟩, ⟨.call ⟨3⟩ [], .dummy⟩,
    ⟨.function none [] (.expression ⟨4⟩), .dummy⟩, ⟨.call ⟨5⟩ [], .dummy⟩, ⟨.expressionStatement ⟨6⟩, .dummy⟩,
    ⟨.program [⟨7⟩], .dummy⟩]
  root := ⟨8⟩
  accepted := by decide

def State.appliesInTail (id : NodeId) (s : State) : Bool :=
  match s.agenda, s.stash with
  | .instr (.apply 0 false _) :: a, .closure _ f :: _ => f.node == id && Agenda.endsCall a
  | _, _ => false

theorem State.applies_of_appliesInTail {id : NodeId} {s : State} (h : s.appliesInTail id = true) :
    ∃ f : Closure, f.node = id ∧ s.Applies f ∧ s.behind.endsCall = true := by
  unfold appliesInTail at h
  split at h
  next node a identity f stash hagenda hstash =>
    rw [Bool.and_eq_true] at h
    exact ⟨f, eq_of_beq h.1, ⟨[], _, none, node, a, stash, hagenda, hstash, rfl⟩,
      by rw [State.behind, hagenda]; exact h.2⟩
  · cases h

namespace Machine

/-- A run that goes on begins with an item that is carried out. -/
theorem exists_advance {p : Setting} {n : Nat} {s : State} (h : (travel p (n + 1) s).isRunning = true) :
    ∃ s₁, advance p s = .running s₁ ∧ (travel p n s₁).isRunning = true := by
  rw [travel_succ] at h
  cases ha : advance p s with
  | running s₁ => rw [ha] at h; exact ⟨s₁, rfl, h⟩
  | finished v s₁ => rw [ha] at h; cases h
  | failed e s₁ => rw [ha] at h; cases h

theorem tail_calls_need_no_room_sample :
    let m := build .nested .standard [] default (fun _ => 0) .never ()
    Tree.nested.WellPlaced ∧ ∃ s s', m.Reaches s ∧ s.behind.endsCall = true ∧ TailCall m.setting s s' ∧
      s'.behind = s.behind ∧ s'.calls.depth = s.calls.depth := by
  intro m
  have ht : Tree.nested.WellPlaced := by decide
  -- The second of the three functions is about to be applied, as the body of the first.
  have hrunning : (m.runThrough 7).progress.isRunning = true := by decide +kernel
  have happlies : (m.runThrough 7).progress.state.appliesInTail ⟨3⟩ = true := by decide +kernel
  have hgoes : (travel m.setting 3 (m.runThrough 7).progress.state).isRunning = true := by decide +kernel
  have hs : m.Reaches (m.runThrough 7).progress.state := ⟨7, Progress.eq_running hrunning⟩
  generalize (m.runThrough 7).progress.state = s at happlies hgoes hs
  obtain ⟨f, hnode, hf, hends⟩ := State.applies_of_appliesInTail happlies
  obtain ⟨r, hr, hgoes⟩ := exists_advance hgoes
  obtain ⟨r₁, hr₁, hgoes⟩ := exists_advance hgoes
  obtain ⟨s', hs', -⟩ := exists_advance hgoes
  have hbody : m.setting.tree.kind? f.node = some (.function none [] (.expression ⟨2⟩)) := by rw [hnode]; rfl
  have hcall : m.setting.tree.kind? ⟨2⟩ = some (.call ⟨1⟩ []) := rfl
  have hcallee : m.setting.tree.kind? ⟨1⟩ = some (.function none [] (.expression ⟨0⟩)) := rfl
  have hagenda : r.agenda = .node ⟨2⟩ :: s.behind := by
    obtain ⟨fname, params, code, frame, hkind, hagenda, -⟩ := entered_of_applies hf hr
    cases hbody.symm.trans hkind
    rw [hagenda, Agenda.closing_of_endsCall hends]
    rfl
  have hagenda₁ : r₁.agenda = .node ⟨1⟩ :: .instr (.apply 0 false ⟨2⟩) :: s.behind :=
    ((move_of_advance hagenda hr₁).plain_node hcall rfl fun _ h => by cases h).1
  have hagenda' : s'.agenda = .instr (.apply 0 false ⟨2⟩) :: s.behind :=
    ((move_of_advance hagenda₁ hs').plain_node hcallee rfl fun _ h => by cases h).1
  have hdown : Descends m.setting r s' := by
    refine ⟨r₁, 1, hr₁, ⟨?_, fun j hj t ht => ?_⟩, by rw [hagenda', hagenda]; exact Nat.le_refl _⟩
    · rw [travel_succ, hs']
      rfl
    · obtain rfl := Nat.lt_one_iff.mp hj
      cases ht
      rw [hagenda, hagenda₁]
      refine ⟨Nat.lt_succ_self _, fun k v ⟨_, _, _, _, _, _, hnext, _⟩ => ?_⟩
      rw [hagenda₁] at hnext
      cases hnext
  have htail : TailCall m.setting s s' :=
    ⟨r, ⟨2⟩, ⟨1⟩, [], s.behind, .body hf hbody hr, hagenda, hcall, hdown⟩
  obtain ⟨-, -, -, -, hplaced⟩ := tail_calls_need_no_room .nested .standard [] default (fun _ => 0) .never ()
  exact ⟨ht, s, s', hs, hends, htail, (hplaced ht).2 s s' hs hends (.single htail)⟩

end Machine

end ExplicitControl
