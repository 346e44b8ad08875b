import ExplicitControl.Proofs.Moves

/-!
# What is left pending

For many properties of a run only the pending work matters.  `Reschedules` is what the moves do to it: a node and a call
put items in front, an instruction puts some of its offers in front or leaves the work alone, and a jump drops a
part of it.  Only the call of a continuation does none of these: it goes back to the work that the continuation has
kept, and what is kept by a continuation has been pending before.

So a property of the pending work that `Reschedules` keeps is kept by every step, for the captured work as well.
-/

namespace ExplicitControl

namespace Machine

open Agenda

variable {p : Setting} {s s' : State} {item : Item}

/-- What carrying out an item leaves pending when `a` is pending behind it, if no continuation is invoked. -/
inductive Reschedules (p : Setting) (env : Env) (a : Agenda) : Item → Agenda → Prop where
  | plain {id : NodeId} {kind : NodeKind} (hkind : p.tree.kind? id = some kind) (hopened : p.tree.opened kind = [])
      (hgoes : ∀ argument, kind ≠ .returnStatement argument) :
      Reschedules p env a (.node id) (kindItems p id kind ++ (kind.padding ++ a))
  | scope {id : NodeId} {kind : NodeKind} (hkind : p.tree.kind? id = some kind) (hopened : p.tree.opened kind ≠ []) :
      Reschedules p env a (.node id) (kindItems p id kind ++ Agenda.opening env (kind.padding ++ a))
  | returned {id : NodeId} {argument : Option NodeId} (hkind : p.tree.kind? id = some (.returnStatement argument)) :
      Reschedules p env a (.node id) (if a.inTailPosition then returnItem argument :: unwindCall a
        else returnItem argument :: .instr .reset :: a)
  | offered {i : Instr} {items : List Item} (hplain : isPlainInstr i = true) (hoffered : items ∈ i.offers) :
      Reschedules p env a (.instr i) (items ++ a)
  /-- An instruction that works on values, variables, frames or calls only, or a call that is answered at once. -/
  | same {i : Instr} : Reschedules p env a (.instr i) a
  | reset : Reschedules p env a (.instr .reset) (unwindCall a)
  | reached {i : Instr} {target : Marker} {rest : Agenda} (htarget : i.target? = some target)
      (hsearch : searchLoop target a = .reached rest) : Reschedules p env a (.instr i) rest
  | stopped {i : Instr} {target : Marker} {ending : Item} {rest : Agenda} (htarget : i.target? = some target)
      (hsearch : searchLoop target a = .scope ending rest) : Reschedules p env a (.instr i) (ending :: .instr i :: rest)
  | entered {arity : Nat} {hasReceiver : Bool} {node f : NodeId} {fname : Option Name} {params : List Name}
      {code : FunctionBody} (hkind : p.tree.kind? f = some (.function fname params code)) :
      Reschedules p env a (.instr (.apply arity hasReceiver node)) (bodyItems code ++ a.closing env)

theorem Call.reschedules_or_resumes {callee : Value} {args : List Value} {arity : Nat} {hasReceiver : Bool}
    {node : NodeId}
    (h : Call p s s' callee args) :
    Reschedules p s.env s.agenda (.instr (.apply arity hasReceiver node)) s'.agenda ∨
      (∃ k, callee = .continuation k ∧ args.length ≤ 1) ∧ ∃ kept ∈ s'.snapshots, s'.agenda = kept.agenda := by
  cases h with
  | enter hclosure hkind harity hagenda hstash hcalls hsnapshots hmade hnames =>
    exact .inl (hagenda ▸ .entered hkind)
  | answer hagenda hstash hstill => exact .inl (hagenda ▸ .same)
  | @invoke k kept hcontinuation harity hkept hregisters hscopes hsnapshots =>
    refine .inr ⟨⟨k, hcontinuation, harity⟩, kept, ?_, congrArg Snapshot.agenda hregisters⟩
    exact hsnapshots ▸ Array.mem_of_getElem? hkept

/-- Every step does to the pending work what `Reschedules` says, or it invokes a continuation. -/
theorem Move.reschedules_or_resumes (h : Move p s s' item) :
    Reschedules p s.env s.agenda item s'.agenda ∨
      (∃ k v, State.Invokes { s with agenda := item :: s.agenda } k v) ∧
        ∃ kept ∈ s'.snapshots, s'.agenda = kept.agenda := by
  cases h with
  | plain hkind hopened hgoes hagenda hstill => exact .inl (hagenda ▸ .plain hkind hopened hgoes)
  | scope hkind hopened hagenda hcalls hsnapshots hmade hnames => exact .inl (hagenda ▸ .scope hkind hopened)
  | returned hkind hagenda hstash hstill => exact .inl (hagenda ▸ .returned hkind)
  | instr hplain hoffered hagenda hstill => exact .inl (hagenda ▸ .offered hplain hoffered)
  | assign howner hslot hvalue hmutability hagenda henv hcalls hsnapshots hscopes => exact .inl (hagenda ▸ .same)
  | declare howner hagenda henv hcalls hsnapshots hscopes => exact .inl (hagenda ▸ .same)
  | freshTrip hvars hagenda hcalls hsnapshots hmade => exact .inl (hagenda ▸ .same)
  | restore hagenda hstash henv hcalls hscopes hsnapshots => exact .inl (hagenda ▸ .same)
  | reset hagenda hstash hstill => exact .inl (hagenda ▸ .reset)
  | reached htarget hsearch hagenda hstash hstill => exact .inl (hagenda ▸ .reached htarget hsearch)
  | stopped htarget hsearch hagenda hstash hstill => exact .inl (hagenda ▸ .stopped htarget hsearch)
  | call hoperands houtcome =>
    obtain hrescheduled | ⟨⟨k, hcallee, harity⟩, hresumed⟩ := houtcome.reschedules_or_resumes
    · exact .inl hrescheduled
    · refine .inr ⟨by_contra fun hnone => ?_, hresumed⟩
      have hmany := one_lt_of_not_invokes hoperands (fun k v h => hnone ⟨k, v, h⟩) hcallee
      exact Nat.not_lt.mpr harity hmany
  | callCc hoperands houtcome =>
    obtain hrescheduled | ⟨⟨k, hcallee, -⟩, hresumed⟩ := houtcome.reschedules_or_resumes
    · exact .inl hrescheduled
    · refine .inr ⟨by_contra fun hnone => ?_, hresumed⟩
      exact ne_continuation_of_not_invokes hoperands (fun k v h => hnone ⟨k, v, h⟩) k hcallee
  | callCcTwice hoperands houtcome =>
    exact houtcome.reschedules_or_resumes.imp_right fun h => ⟨⟨_, _, invokes_of_callCcTwice hoperands⟩, h.2⟩

theorem Move.reschedules (h : Move p s s' item)
    (hnone : ∀ k v, ¬State.Invokes { s with agenda := item :: s.agenda } k v) :
    Reschedules p s.env s.agenda item s'.agenda :=
  h.reschedules_or_resumes.resolve_right fun ⟨⟨k, v, hinvokes⟩, _⟩ => hnone k v hinvokes

/-! ## Captured work -/

theorem mem_captured {k : Snapshot} (h : k ∈ s.captured.snapshots) :
    k ∈ s.snapshots ∨ k.agenda = s.agenda ∧ k.calls = s.calls := by
  obtain h | rfl := Array.mem_push.mp h
  · exact .inl h
  · exact .inr ⟨rfl, rfl⟩

theorem Call.snapshots_eq {callee : Value} {args : List Value} (h : Call p s s' callee args) :
    s'.snapshots = s.snapshots := by
  cases h with
  | enter hclosure hkind harity hagenda hstash hcalls hsnapshots hmade hnames => exact hsnapshots
  | answer hagenda hstash hstill => exact hstill.snapshots
  | invoke hcontinuation harity hkept hregisters hscopes hsnapshots => exact hsnapshots

/-- Only a call captures continuations, one or two. -/
theorem Move.snapshots_cases (h : Move p s s' item) :
    s'.snapshots = s.snapshots ∨
      (∃ arity hasReceiver node, item = .instr (.apply arity hasReceiver node)) ∧ ∃ stash,
        s'.snapshots = (State.captured { s with stash }).snapshots ∨
        s'.snapshots = (State.captured (State.captured { s with stash })).snapshots := by
  cases h with
  | plain hkind hopened hgoes hagenda hstill => exact .inl hstill.snapshots
  | scope hkind hopened hagenda hcalls hsnapshots hmade hnames => exact .inl hsnapshots
  | returned hkind hagenda hstash hstill => exact .inl hstill.snapshots
  | instr hplain hoffered hagenda hstill => exact .inl hstill.snapshots
  | assign howner hslot hvalue hmutability hagenda henv hcalls hsnapshots hscopes => exact .inl hsnapshots
  | declare howner hagenda henv hcalls hsnapshots hscopes => exact .inl hsnapshots
  | freshTrip hvars hagenda hcalls hsnapshots hmade => exact .inl hsnapshots
  | restore hagenda hstash henv hcalls hscopes hsnapshots => exact .inl hsnapshots
  | reset hagenda hstash hstill => exact .inl hstill.snapshots
  | reached htarget hsearch hagenda hstash hstill => exact .inl hstill.snapshots
  | stopped htarget hsearch hagenda hstash hstill => exact .inl hstill.snapshots
  | call hoperands houtcome => exact .inl houtcome.snapshots_eq
  | callCc hoperands houtcome => exact .inr ⟨⟨_, _, _, rfl⟩, _, .inl houtcome.snapshots_eq⟩
  | callCcTwice hoperands houtcome => exact .inr ⟨⟨_, _, _, rfl⟩, _, .inr houtcome.snapshots_eq⟩

theorem Move.snapshots_eq (h : Move p s s' item)
    (hitem : ∀ arity hasReceiver node, item ≠ .instr (.apply arity hasReceiver node)) : s'.snapshots = s.snapshots :=
  h.snapshots_cases.resolve_right fun ⟨⟨_, _, _, heq⟩, _⟩ => hitem _ _ _ heq

/-- A continuation that has been captured is kept. -/
theorem Move.snapshots_prefix (h : Move p s s' item) : s.snapshots.toList <+: s'.snapshots.toList := by
  have captured : ∀ s : State, s.snapshots.toList <+: s.captured.snapshots.toList := fun s => by
    rw [State.captured, Array.toList_push]
    exact List.prefix_append _ _
  obtain heq | ⟨-, stash, heq | heq⟩ := h.snapshots_cases
  · exact heq ▸ List.prefix_refl _
  · exact heq ▸ captured { s with stash }
  · exact heq ▸ (captured { s with stash }).trans (captured _)

/-- What a call captures is the pending work and the live calls. -/
theorem Move.captures (h : Move p s s' item) : ∀ k ∈ s'.snapshots, k ∈ s.snapshots ∨
    (∃ arity hasReceiver node, item = .instr (.apply arity hasReceiver node)) ∧ k.agenda = s.agenda ∧
      k.calls = s.calls := by
  intro k hk
  obtain heq | ⟨happly, stash, heq | heq⟩ := h.snapshots_cases <;> rw [heq] at hk
  · exact .inl hk
  · exact (mem_captured hk).imp_right fun hsame => ⟨happly, hsame⟩
  · obtain hk | hsame := mem_captured hk
    · exact (mem_captured hk).imp_right fun hsame => ⟨happly, hsame⟩
    · exact .inr ⟨happly, hsame⟩

/-- A property of the pending work and of the captured work is kept if the item leaves only work that has it. -/
theorem Move.keepsWork {P : Agenda → Prop} (h : Move p s s' item) (hs : P s.agenda)
    (hkept : ∀ k ∈ s.snapshots, P k.agenda) (hrescheduled : ∀ b, Reschedules p s.env s.agenda item b → P b) :
    P s'.agenda ∧ ∀ k ∈ s'.snapshots, P k.agenda := by
  have captured : ∀ k ∈ s'.snapshots, P k.agenda := by
    intro k hk
    obtain hold | ⟨-, hsame, -⟩ := h.captures k hk
    · exact hkept k hold
    · exact hsame ▸ hs
  refine ⟨?_, captured⟩
  obtain hnow | ⟨-, k, hk, heq⟩ := h.reschedules_or_resumes
  · exact hrescheduled _ hnow
  · exact heq ▸ captured k hk

end Machine

end ExplicitControl
