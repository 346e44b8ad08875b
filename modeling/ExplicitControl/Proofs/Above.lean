import ExplicitControl.Proofs.Tidy

/-!
# Work above other work

As long as the work `b` stays at the bottom of the agenda, what is done above it does not depend on it: the move
is one of a machine that has only the work above pending.  So what moves keep of all pending work they keep of
the work above `b` as well, and nothing in `b` matters until its turn comes.  That `b` does not begin with the
end of a scope is needed, since a scope or a call right in front of it would be left to that end.
-/

namespace ExplicitControl

namespace Agenda

variable {a b : Agenda}

theorem endsScope_append (hb : b.endsScope = false) (a : Agenda) : endsScope (a ++ b) = a.endsScope := by
  cases a with
  | nil => exact hb
  | cons item rest => rfl

theorem endsCall_append (hb : b.endsScope = false) (a : Agenda) : endsCall (a ++ b) = a.endsCall := by
  cases a with
  | nil => exact Machine.endsCall_eq_false hb
  | cons item rest => rfl

theorem opening_append (hb : b.endsScope = false) (env : Env) (a : Agenda) :
    opening env (a ++ b) = opening env a ++ b := by
  unfold opening
  rw [endsScope_append hb]
  split <;> rfl

theorem closing_append (hb : b.endsScope = false) (env : Env) (a : Agenda) :
    closing env (a ++ b) = closing env a ++ b := by
  cases a with
  | nil => exact if_neg (by rw [show (([] : Agenda) ++ b).head?.any Item.isRestore = false from hb]; decide)
  | cons item rest =>
    obtain ⟨hhead, -, hclosing⟩ | ⟨env', closesCall, rest', heq, -, hclosing⟩ :=
      Machine.closing_cases env (item :: rest)
    · rw [hclosing]
      exact if_neg (by rw [show ((item :: rest ++ b).head?.any Item.isRestore) = false from hhead]; decide)
    · rw [hclosing]
      cases heq
      rfl

theorem inTailPosition_append (b : Agenda) (ha : a.inTailPosition = true) : inTailPosition (a ++ b) = true := by
  induction a with
  | nil => cases ha
  | cons item rest ih =>
    unfold inTailPosition at ha
    split at ha
    next heq => cases heq; exact ih ha
    next heq =>
      cases heq
      rw [Item.isMarker_iff.mp ha]
      rfl
    next heq => cases heq

/-- Before a call marker the way is found without looking further. -/
theorem inTailPosition_of_append (hmarker : .instr (.marker .call) ∈ a) (h : inTailPosition (a ++ b) = true) :
    a.inTailPosition = true := by
  induction a with
  | nil => exact absurd hmarker List.not_mem_nil
  | cons item rest ih =>
    rw [List.cons_append] at h
    unfold inTailPosition at h
    split at h
    next heq =>
      cases heq
      obtain heq | hmarker := List.mem_cons.mp hmarker
      · cases heq
      · exact ih hmarker h
    next heq =>
      cases heq
      rw [Item.isMarker_iff.mp h]
      rfl
    next heq => cases heq

theorem length_unwindCall_le (a : Agenda) : (unwindCall a).length ≤ a.length :=
  (unwindCall_suffix a).length_le

theorem length_unwindCall_lt (ha : a ≠ []) : (unwindCall a).length < a.length := by
  cases a with
  | nil => exact absurd rfl ha
  | cons item rest =>
    rw [unwindCall, List.length_cons]
    split
    · exact Nat.lt_succ_self _
    · exact Nat.lt_succ_of_le (length_unwindCall_le rest)

/-- Without a call marker above it, some of `b` is dropped as well. -/
theorem unwindCall_append_of_not_mem (hmarker : .instr (.marker .call) ∉ a) (b : Agenda) :
    unwindCall (a ++ b) = unwindCall b := by
  refine unwindCall_append b fun item hitem => ?_
  cases h : item.isMarker .call with
  | false => rfl
  | true => exact absurd (Item.isMarker_iff.mp h ▸ hitem) hmarker

end Agenda

namespace Machine

open Agenda

variable {p : Setting} {s s' : State} {a b : Agenda}

/-- A call that invokes no continuation goes on in front of what it has been made in front of. -/
theorem Call.above {callee : Value} {args : List Value} (hb : b.endsScope = false) (hs : s.agenda = a ++ b)
    (h : Call p s s' callee args) (hnone : ∀ k, callee = .continuation k → 1 < args.length) :
    ∃ a', s'.agenda = a' ++ b ∧ ∀ kept,
      Call p { s with agenda := a, snapshots := kept } { s' with agenda := a', snapshots := kept } callee args := by
  cases h with
  | @enter identity f fname params code frame name node receiver hclosure hkind harity hagenda hstash hcalls
      hsnapshots hmade hnames hroom hargs =>
    refine ⟨bodyItems code ++ closing s.env a, ?_, fun kept => ?_⟩
    · rw [hagenda, hs, closing_append hb, List.append_assoc]
    · rw [hs, endsCall_append hb] at hcalls hroom
      exact .enter hclosure hkind harity rfl hstash hcalls rfl ⟨hmade.handle, hmade.frames, hmade.next⟩ hnames hroom
        hargs
  | answer hagenda hstash hstill hhost =>
    exact ⟨a, hagenda.trans hs, fun kept => .answer rfl hstash
      ⟨hstill.env, hstill.scopes, hstill.calls, rfl, hstill.next⟩ hhost⟩
  | @invoke k kept hcontinuation harity hkept hregisters hscopes hsnapshots =>
    exact absurd (hnone k hcontinuation) (Nat.not_lt.mpr harity)

/-- A jump that stays in front of `b` does not depend on it. -/
theorem searchLoop_above {target : Marker} {item : Item} {rest : Agenda} (hb : b.endsScope = false)
    (h : searchLoop target (a ++ b) = .scope item rest) {i : Instr} (hi : b <:+ item :: .instr i :: rest) :
    ∃ rest', searchLoop target a = .scope item rest' ∧ rest = rest' ++ b := by
  obtain ⟨dropped, hdropped, hcase⟩ := exists_searchLoop target a
  obtain ⟨after, rfl, -⟩ | ⟨env, closesCall, after, rfl, hscope⟩ | ⟨after, rfl, -⟩ | ⟨rfl, -⟩ := hcase
  · rw [List.append_assoc, searchLoop_append _ hdropped, List.cons_append, searchLoop_target] at h
    cases h
  · rw [List.append_assoc, searchLoop_append _ hdropped, List.cons_append, searchLoop_restore] at h
    cases h
    exact ⟨after, hscope, rfl⟩
  · rw [List.append_assoc, searchLoop_append _ hdropped, List.cons_append] at h
    cases target <;> cases h
  · -- A scope that ends within `b` is its first item at best, and `b` begins with another one.
    rw [searchLoop_append _ hdropped] at h
    obtain ⟨more, env, closesCall, -, rfl, rfl⟩ := eq_of_searchLoop_scope h
    exfalso
    rw [List.suffix_cons_iff] at hi
    obtain heq | hi := hi
    · rw [heq] at hb
      cases hb
    · have hlength := hi.length_le
      rw [List.length_append, List.length_cons, List.length_cons] at hlength
      obtain rfl : more = [] := List.eq_nil_of_length_eq_zero (by omega)
      cases hb

theorem reached_above {target : Marker} {rest : Agenda} (hb : b ≠ [])
    (h : searchLoop target (a ++ b) = .reached rest) (hrest : b <:+ rest) :
    ∃ rest', searchLoop target a = .reached rest' ∧ rest = rest' ++ b := by
  obtain ⟨dropped, hdropped, hcase⟩ := exists_searchLoop target a
  obtain ⟨after, rfl, hreached⟩ | ⟨env, closesCall, after, rfl, -⟩ | ⟨after, rfl, hout⟩ | ⟨rfl, -⟩ := hcase
  · rw [List.append_assoc, searchLoop_append _ hdropped, List.cons_append, searchLoop_target] at h
    cases h
    exact ⟨after, hreached, rfl⟩
  · rw [List.append_assoc, searchLoop_append _ hdropped, List.cons_append, searchLoop_restore] at h
    cases h
  · cases target with
    | call => rw [searchLoop_append _ hdropped, searchLoop_target] at hout; cases hout
    | _ => rw [List.append_assoc, searchLoop_append _ hdropped, List.cons_append] at h; cases h
  · rw [searchLoop_append _ hdropped] at h
    obtain ⟨more, -, rfl⟩ := eq_of_searchLoop_reached h
    have hlength := hrest.length_le
    rw [List.length_append, List.length_cons] at hlength
    omega

/-- What drops work through a call marker, and leaves `b`, has found the marker in front of `b`. -/
theorem mem_marker_of_suffix (hb : b ≠ []) (h : b <:+ unwindCall (a ++ b)) : .instr (.marker .call) ∈ a := by
  by_contra hmarker
  rw [unwindCall_append_of_not_mem hmarker] at h
  exact absurd h.length_le (Nat.not_le.mpr (length_unwindCall_lt hb))

/-- The same, where the value to be returned comes first. -/
theorem mem_marker_of_suffix_cons {item : Item} (hb : b ≠ []) (hitem : item.isMarker .call = false)
    (htail : inTailPosition (a ++ b) = true) (h : b <:+ item :: unwindCall (a ++ b)) :
    .instr (.marker .call) ∈ a := by
  rw [List.suffix_cons_iff] at h
  obtain heq | h := h
  · by_contra hmarker
    rw [unwindCall_append_of_not_mem hmarker] at heq
    -- Behind the value nothing could be left, so there would be no marker at all.
    have hnone : unwindCall b = [] := by
      by_contra hne
      have hlt := length_unwindCall_lt hne
      have hlength := congrArg List.length heq
      rw [heq, unwindCall, if_neg (by rw [hitem]; decide)] at heq
      have heq' := congrArg List.length (List.cons.inj heq).2
      omega
    rw [hnone] at heq
    obtain hmem | hmem := List.mem_append.mp (mem_marker_of_inTailPosition htail)
    · exact hmarker hmem
    · rw [heq, List.mem_singleton] at hmem
      rw [← hmem] at hitem
      cases hitem
  · exact mem_marker_of_suffix hb h

/-- A move that leaves `b` where it is and invokes no continuation is one of the work in front of `b` alone. -/
theorem Move.above {item : Item} (hb : b.endsScope = false) (hs : s.agenda = a ++ b) (h : Move p s s' item)
    (hnone : ∀ k v, ¬State.Invokes { s with agenda := item :: s.agenda } k v) (hkept : b <:+ s'.agenda) :
    ∃ a' kept, s'.agenda = a' ++ b ∧
      Move p { s with agenda := a } { s' with agenda := a', snapshots := kept } item := by
  by_cases hnil : b = []
  · subst hnil
    rw [List.append_nil] at hs
    subst hs
    exact ⟨s'.agenda, s'.snapshots, (List.append_nil _).symm, h⟩
  have still : ∀ a', s.Still s' → State.Still { s with agenda := a } { s' with agenda := a' } :=
    fun a' hstill => ⟨hstill.env, hstill.scopes, hstill.calls, hstill.snapshots, hstill.next⟩
  cases h with
  | @plain id kind hkind hopened hgoes hagenda hstill hstash =>
    refine ⟨kindItems p id kind ++ (kind.padding ++ a), s'.snapshots, ?_,
      .plain hkind hopened hgoes rfl (still _ hstill) hstash⟩
    rw [hagenda, hs, List.append_assoc, List.append_assoc]
  | @scope id kind name hkind hopened hagenda hcalls hsnapshots hmade hnames hstash =>
    refine ⟨kindItems p id kind ++ opening s.env (kind.padding ++ a), s'.snapshots, ?_,
      .scope hkind hopened rfl hcalls hsnapshots ⟨hmade.handle, hmade.frames, hmade.next⟩ hnames hstash⟩
    rw [hagenda, hs, ← List.append_assoc kind.padding, opening_append hb, List.append_assoc]
  | @returned id argument hkind hagenda hstash hstill =>
    -- The marker that is looked for is in front of `b`, so the tail position can be told from `a` alone.
    cases htail : inTailPosition (a ++ b) with
    | true =>
      rw [hs, htail, if_pos rfl] at hagenda
      rw [hagenda] at hkept
      have hmarker := mem_marker_of_suffix_cons hnil
        (Item.not_isMarker_of_isQuiet (isQuiet_returnItem argument)) htail hkept
      refine ⟨returnItem argument :: unwindCall a, s'.snapshots, ?_, .returned hkind ?_ hstash (still _ hstill)⟩
      · rw [hagenda, unwindCall_append_right hmarker]
        rfl
      · exact (if_pos (inTailPosition_of_append hmarker htail)).symm
    | false =>
      rw [hs, htail, if_neg Bool.false_ne_true] at hagenda
      refine ⟨returnItem argument :: .instr .reset :: a, s'.snapshots, hagenda,
        .returned hkind ?_ hstash (still _ hstill)⟩
      refine (if_neg fun h => ?_).symm
      rw [inTailPosition_append b h] at htail
      cases htail
  | @instr i items hplain hoffered hagenda hstill hstash =>
    refine ⟨items ++ a, s'.snapshots, ?_, .instr hplain hoffered rfl (still _ hstill) hstash⟩
    rw [hagenda, hs, List.append_assoc]
  | assign howner hslot hvalue hmutability hagenda henv hcalls hsnapshots hscopes hnext hstash hkeeps =>
    exact ⟨a, s'.snapshots, hagenda.trans hs,
      .assign howner hslot hvalue hmutability rfl henv hcalls hsnapshots hscopes hnext hstash hkeeps⟩
  | declare howner hagenda henv hcalls hsnapshots hscopes hnext hstash hleaves =>
    exact ⟨a, s'.snapshots, hagenda.trans hs,
      .declare howner rfl henv hcalls hsnapshots hscopes hnext hstash hleaves⟩
  | freshTrip hvars hagenda hcalls hsnapshots hmade hstash =>
    exact ⟨a, s'.snapshots, hagenda.trans hs,
      .freshTrip hvars rfl hcalls hsnapshots ⟨hmade.handle, hmade.frames, hmade.next⟩ hstash⟩
  | restore hagenda hstash henv hcalls hscopes hsnapshots hnext =>
    exact ⟨a, s'.snapshots, hagenda.trans hs, .restore rfl hstash henv hcalls hscopes hsnapshots hnext⟩
  | reset hagenda hstash hstill =>
    rw [hs] at hagenda
    have hmarker := mem_marker_of_suffix hnil (hagenda ▸ hkept)
    exact ⟨unwindCall a, s'.snapshots, hagenda.trans (unwindCall_append_right hmarker b),
      .reset rfl hstash (still _ hstill)⟩
  | @reached i target rest htarget hsearch hagenda hstash hstill =>
    rw [hs] at hsearch
    obtain ⟨rest', hsearch', rfl⟩ := reached_above hnil hsearch (hagenda ▸ hkept)
    exact ⟨rest', s'.snapshots, hagenda, .reached htarget hsearch' rfl hstash (still _ hstill)⟩
  | @stopped i target item rest htarget hsearch hagenda hstash hstill =>
    rw [hs] at hsearch
    obtain ⟨rest', hsearch', rfl⟩ := searchLoop_above hb hsearch (hagenda ▸ hkept)
    exact ⟨item :: .instr i :: rest', s'.snapshots, hagenda, .stopped htarget hsearch' rfl hstash (still _ hstill)⟩
  | @call args callee receiver stash node hoperands houtcome =>
    obtain ⟨a', hagenda, hcall⟩ :=
      Call.above (s := { s with stash }) hb hs houtcome fun k => one_lt_of_not_invokes hoperands hnone
    exact ⟨a', s.snapshots, hagenda, .call hoperands (hcall s.snapshots)⟩
  | @callCc callee receiver stash node hoperands houtcome =>
    obtain ⟨a', hagenda, hcall⟩ := Call.above (s := State.captured { s with stash }) hb hs houtcome fun k hk =>
      absurd hk (ne_continuation_of_not_invokes hoperands hnone k)
    exact ⟨a', s.snapshots.push ⟨a, stash, s.env, s.calls⟩, hagenda, .callCc hoperands (hcall _)⟩
  | @callCcTwice receiver stash node hoperands houtcome =>
    exact absurd (invokes_of_callCcTwice hoperands) (hnone _ _)

/-- A call leaves `b` where it is behind its own end; the end of a call that `b` begins with may serve for this one
too. -/
theorem suffix_closing (hb : b.endsScope = false ∨ b.endsCall = true) (a : Agenda) (env : Env) :
    b <:+ (a ++ b).closing env := by
  cases a with
  | nil =>
    obtain hb | hb := hb
    · rw [closing_append hb]
      exact List.suffix_append _ _
    · exact (closing_of_endsCall hb env).symm ▸ List.suffix_refl b
  | cons item rest =>
    obtain ⟨-, -, hclosing⟩ | ⟨env', closesCall, rest', heq, -, hclosing⟩ := closing_cases env (item :: rest ++ b)
    · rw [hclosing]
      exact (List.suffix_append _ _).trans (List.suffix_cons _ _)
    · obtain ⟨rfl, rfl⟩ := List.cons.inj heq
      rw [hclosing]
      exact (List.suffix_append _ _).trans (List.suffix_cons _ _)

theorem suffix_opening (h : b <:+ a) (env : Env) : b <:+ a.opening env := by
  unfold Agenda.opening
  split
  · exact h
  · exact h.trans (List.suffix_cons _ _)

/-- Work on statements that has a call marker in front of `b` leaves `b` where it is, and so does all other
work; the end of a call that `b` begins with may serve for more calls. -/
theorem Reschedules.keeps {item : Item} {env : Env} {c : Agenda} (hb : b.endsScope = false ∨ b.endsCall = true)
    (h : Reschedules p env (a ++ b) item c)
    (hmarker : item.isStatementWork p.tree = true → .instr (.marker .call) ∈ a) :
    b <:+ c := by
  have stays : b <:+ a ++ b := List.suffix_append a b
  cases h with
  | plain hkind hopened hgoes => exact (stays.trans (List.suffix_append _ _)).trans (List.suffix_append _ _)
  | scope hkind hopened =>
    exact (suffix_opening (stays.trans (List.suffix_append _ _)) env).trans (List.suffix_append _ _)
  | returned hkind =>
    split
    · rw [unwindCall_append_right (hmarker (Tree.isStatement_of_kind hkind))]
      exact (List.suffix_append _ _).trans (List.suffix_cons _ _)
    · exact (stays.trans (List.suffix_cons _ _)).trans (List.suffix_cons _ _)
  | offered hplain hoffered => exact stays.trans (List.suffix_append _ _)
  | same => exact stays
  | reset =>
    rw [unwindCall_append_right (hmarker rfl)]
    exact List.suffix_append _ _
  | @reached i target rest htarget hsearch =>
    have hwork : i.isStatementWork p.tree = true := Instr.isStatementWork_of_target htarget
    obtain ⟨_, rest', -, -, h⟩ | ⟨_, _, _, _, -, -, h⟩ | h := searchLoop_append_right target (hmarker hwork) b <;>
      rw [hsearch] at h <;> cases h
    exact List.suffix_append rest' b
  | @stopped i target ending rest htarget hsearch =>
    have hwork : i.isStatementWork p.tree = true := Instr.isStatementWork_of_target htarget
    obtain ⟨_, _, -, -, h⟩ | ⟨_, _, _, rest', -, -, h⟩ | h := searchLoop_append_right target (hmarker hwork) b <;>
      rw [hsearch] at h <;> cases h
    exact ((List.suffix_append rest' b).trans (List.suffix_cons _ _)).trans (List.suffix_cons _ _)
  | entered hkind => exact (suffix_closing hb a env).trans (List.suffix_append _ _)

theorem Move.keeps {item : Item} (hb : b.endsScope = false ∨ b.endsCall = true) (hs : s.agenda = a ++ b)
    (h : Move p s s' item) (hmarker : item.isStatementWork p.tree = true → .instr (.marker .call) ∈ a)
    (hnone : ∀ k v, ¬State.Invokes { s with agenda := item :: s.agenda } k v) : b <:+ s'.agenda :=
  Reschedules.keeps hb (hs ▸ h.reschedules hnone) hmarker

end Machine

end ExplicitControl
