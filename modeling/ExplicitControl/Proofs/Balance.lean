import ExplicitControl.Proofs.Above
import ExplicitControl.Proofs.CallReturn
import ExplicitControl.Proofs.Declarations
import ExplicitControl.Proofs.TailCalls

/-!
# Evaluation is balanced

A node that is evaluated in front of other work leaves one value on the stash that it has found, and leaves the
environment and the calls as they were.  For the environment this is seen on the pending work: the last item
that brings an environment back says which one is current in the end, and whatever a step does, the answer stays
the same.  Only a `return` outside of any function drops such items, together with all other work.
-/

namespace ExplicitControl

/-! ## 1. The environment in the end -/

/-- The environment that is current when an item and all that it puts in front have been done, if it is known;
`e` is the one before. -/
def Item.envAfter (e : Option Env) : Item → Option Env
  | .instr (.restore env _) => some env
  | .instr (.freshTrip vars) | .instr (.forTest _ _ _ vars _) => if vars = [] then e else none
  | _ => e

def Agenda.envAfter (e : Option Env) (a : Agenda) : Option Env :=
  a.foldl Item.envAfter e

def Item.Steady (item : Item) : Prop :=
  ∀ e, item.envAfter e = e

namespace Agenda

variable {a b : Agenda} {e : Option Env} {env : Env}

theorem envAfter_append (e : Option Env) (a b : Agenda) : envAfter e (a ++ b) = envAfter (envAfter e a) b :=
  List.foldl_append

theorem envAfter_of_steady {items : List Item} (h : ∀ item ∈ items, item.Steady) (e : Option Env) :
    envAfter e items = e := by
  induction items generalizing e with
  | nil => rfl
  | cons item items ih =>
    rw [List.forall_mem_cons] at h
    show envAfter (item.envAfter e) items = e
    rw [ih h.2, h.1]

/-- In front of an item that brings one back, the environment does not matter. -/
theorem envAfter_of_endsScope (h : a.endsScope = true) (e e' : Option Env) : envAfter e a = envAfter e' a := by
  cases a with
  | nil => cases h
  | cons item rest =>
    obtain ⟨env, closesCall, rfl⟩ := Item.isRestore_iff.mp h
    rfl

/-- What is known of the end without knowing the environment holds for each. -/
theorem envAfter_of_none (h : envAfter none a = some env) (e : Option Env) : envAfter e a = some env := by
  induction a generalizing e with
  | nil => cases h
  | cons item rest ih =>
    have hrest : envAfter (item.envAfter none) rest = some env := h
    show envAfter (item.envAfter e) rest = some env
    by_cases hsame : item.envAfter e = item.envAfter none
    · rw [hsame, hrest]
    · refine ih ?_ _
      have hnone : item.envAfter none = none := by
        unfold Item.envAfter at hsame ⊢
        split
        · exact absurd rfl hsame
        all_goals simp
      rwa [hnone] at hrest

theorem envAfter_opening (e : Option Env) (env : Env) (a : Agenda) :
    envAfter e (opening env a) = envAfter (some env) a := by
  unfold opening
  split
  next h => exact envAfter_of_endsScope h _ _
  next => rfl

theorem envAfter_closing (e : Option Env) (env : Env) (a : Agenda) :
    envAfter e (closing env a) = envAfter (some env) a := by
  obtain ⟨-, -, hclosing⟩ | ⟨env', closesCall, rest, rfl, -, hclosing⟩ := Machine.closing_cases env a
  · rw [hclosing]
    rfl
  · rw [hclosing]
    rfl

/-- Behind the end of a function comes an item that brings an environment back. -/
theorem envAfter_unwindCall (ha : a.Tidy) (hmarker : .instr (.marker .call) ∈ a) (e e' : Option Env) :
    envAfter e (unwindCall a) = envAfter e' a := by
  have hends := endsScope_of_endsCall (ha.endsCall_unwindCall hmarker)
  obtain ⟨dropped, -, heq⟩ | ⟨hnone, -⟩ := unwindCall_cases a
  · conv_rhs => rw [heq, List.append_cons, envAfter_append]
    exact envAfter_of_endsScope hends _ _
  · exact absurd (hnone _ hmarker) (by decide)

/-- Items that bring no environment back may make the current one unknown, but do not change what is known. -/
theorem envAfter_of_dropped {dropped : Agenda} (hdropped : ∀ item ∈ dropped, item.isRestore = false) {e : Env}
    (h : envAfter (some e) (dropped ++ b) = some env) : envAfter (some e) b = some env := by
  have hcases : envAfter (some e) dropped = some e ∨ envAfter (some e) dropped = none := by
    suffices hall : ∀ e' : Option Env, e' = some e ∨ e' = none →
        envAfter e' dropped = some e ∨ envAfter e' dropped = none from hall _ (.inl rfl)
    clear h
    induction dropped with
    | nil => exact fun _ h => h
    | cons item dropped ih =>
      rw [List.forall_mem_cons] at hdropped
      refine fun e' he' => ih hdropped.2 (item.envAfter e') ?_
      unfold Item.envAfter
      split
      · cases hdropped.1
      all_goals first | exact he' | (split <;> first | exact he' | exact .inr rfl)
  rw [envAfter_append] at h
  obtain hsame | hnone := hcases
  · rwa [hsame] at h
  · rw [hnone] at h
    exact envAfter_of_none h _

end Agenda

namespace Machine

open Agenda

variable {p : Setting} {s s' : State} {E : Env}

theorem steady_simple {i : Instr} (h : i.isSimple = true) : (Item.instr i).Steady := by
  cases i <;> first | exact fun _ => rfl | cases h

theorem steady_padding (kind : NodeKind) : ∀ item ∈ kind.padding, item.Steady := by
  intro item hitem
  rw [eq_of_mem_padding hitem]
  exact fun _ => rfl

/-- What a node without a scope puts in front leaves the environment as it is. -/
theorem steady_kindItems (id : NodeId) {kind : NodeKind} (hopened : p.tree.opened kind = []) :
    ∀ item ∈ kindItems p id kind, item.Steady := by
  have hvars : ((p.tree.opened kind).map fun d => d.2.1) = [] := by rw [hopened]; rfl
  intro item hitem
  cases part_of_mem item hitem with
  | simple h => exact steady_simple h
  | freshTrip h => exact fun _ => if_pos hvars
  | forTest h => exact fun _ => if_pos hvars
  | @jump i target h => cases i <;> first | exact fun _ => rfl | cases h
  | _ => exact fun _ => rfl

theorem steady_offers {i : Instr} {items : List Item} (hitems : items ∈ i.offers) (hvars : (Item.instr i).vars = []) :
    ∀ item ∈ items, item.Steady := by
  intro item hitem
  cases offered_of_mem hitems hitem with
  | simple h => exact steady_simple h
  | freshTrip => exact fun _ => if_pos hvars
  | again h =>
    cases i with
    | whileTest test body node => exact fun _ => rfl
    | forTest test update body vars node => exact fun _ => if_pos hvars
    | _ => cases h
  | _ => exact fun _ => rfl

/-- The work that an instruction puts in front changes the environment no more than the instruction itself. -/
theorem envAfter_offers {i : Instr} (hi : isPlainInstr i = true) {items : List Item} (hitems : items ∈ i.offers)
    {env : Env} {a : Agenda} (h : Agenda.envAfter (some env) (.instr i :: a) = some E) :
    Agenda.envAfter (some env) (items ++ a) = some E := by
  have hrest : Agenda.envAfter ((Item.instr i).envAfter (some env)) a = some E := h
  rw [envAfter_append]
  by_cases hvars : (Item.instr i).vars = []
  · have hsteady : (Item.instr i).envAfter (some env) = some env := by
      cases i with
      | restore env' closesCall => cases hi
      | freshTrip vars => exact if_pos hvars
      | forTest test update body vars node => exact if_pos hvars
      | _ => rfl
    rw [envAfter_of_steady (steady_offers hitems hvars)]
    rwa [hsteady] at hrest
  · -- The variables of the loop have a scope, whose end is behind.
    have hunknown : (Item.instr i).envAfter (some env) = none := by
      cases i with
      | restore env' closesCall => cases hi
      | freshTrip vars => exact if_neg hvars
      | forTest test update body vars node => exact if_neg hvars
      | _ => exact absurd rfl hvars
    rw [hunknown] at hrest
    exact envAfter_of_none hrest _

theorem Call.envAfter {callee : Value} {args : List Value} (h : Call p s s' callee args)
    (hE : Agenda.envAfter (some s.env) s.agenda = some E) (hnone : ∀ k, callee = .continuation k → 1 < args.length) :
    Agenda.envAfter (some s'.env) s'.agenda = some E := by
  cases h with
  | enter hclosure hkind harity hagenda hstash hcalls hsnapshots hmade hnames =>
    rw [hagenda, envAfter_append, envAfter_closing, hE]
  | answer hagenda hstash hstill => rw [hagenda, hstill.env, hE]
  | @invoke k kept hcontinuation harity hkept hregisters hscopes hsnapshots =>
    exact absurd (hnone k hcontinuation) (Nat.not_lt.mpr harity)

/-- A step does not change which environment is current in the end, unless it invokes a continuation or drops
all work. -/
theorem Move.envAfter {item : Item} (h : Move p s s' item) (htidy : s.agenda.Tidy)
    (hnone : ∀ k v, ¬State.Invokes { s with agenda := item :: s.agenda } k v)
    (hreset : item = .instr .reset → .instr (.marker .call) ∈ s.agenda)
    (hE : Agenda.envAfter (some s.env) (item :: s.agenda) = some E) :
    Agenda.envAfter (some s'.env) s'.agenda = some E := by
  cases h with
  | @plain id kind hkind hopened hgoes hagenda hstill =>
    rw [hagenda, hstill.env, envAfter_append, envAfter_of_steady (steady_kindItems id hopened), envAfter_append,
      envAfter_of_steady (steady_padding kind)]
    exact hE
  | @scope id kind name hkind hopened hagenda hcalls hsnapshots hmade hnames =>
    rw [hagenda, envAfter_append, envAfter_opening, envAfter_append, envAfter_of_steady (steady_padding kind)]
    exact hE
  | @returned id argument hkind hagenda hstash hstill =>
    have hvalue : (returnItem argument).Steady := by cases argument <;> exact fun _ => rfl
    rw [hagenda, hstill.env]
    split
    next htail =>
      show Agenda.envAfter ((returnItem argument).envAfter _) _ = _
      rw [hvalue, envAfter_unwindCall htidy (mem_marker_of_inTailPosition htail) _ (some s.env)]
      exact hE
    next =>
      show Agenda.envAfter ((returnItem argument).envAfter _) _ = _
      rw [hvalue]
      exact hE
  | instr hplain hoffered hagenda hstill =>
    rw [hagenda, hstill.env]
    exact envAfter_offers hplain hoffered hE
  | assign howner hslot hvalue hmutability hagenda henv hcalls hsnapshots hscopes => rw [hagenda, henv]; exact hE
  | declare howner hagenda henv hcalls hsnapshots hscopes => rw [hagenda, henv]; exact hE
  | @freshTrip vars hvars hagenda hcalls hsnapshots hmade =>
    -- The end of the scope of the loop is pending, so the copies are not current in the end.
    have hrest : Agenda.envAfter ((Item.instr (.freshTrip vars)).envAfter (some s.env)) s.agenda = some E := hE
    rw [Item.envAfter, if_neg hvars] at hrest
    rw [hagenda]
    exact envAfter_of_none hrest _
  | restore hagenda hstash henv hcalls hscopes hsnapshots => rw [hagenda, henv]; exact hE
  | reset hagenda hstash hstill =>
    rw [hagenda, envAfter_unwindCall htidy (hreset rfl) _ (some s.env)]
    exact hE
  | @reached i target rest htarget hsearch hagenda hstash hstill =>
    obtain ⟨dropped, hdropped, heq⟩ := eq_of_searchLoop_reached hsearch
    have hjump : (Item.instr i).Steady := by cases i <;> first | exact fun _ => rfl | cases htarget
    have hE : Agenda.envAfter ((Item.instr i).envAfter (some s.env)) s.agenda = some E := hE
    rw [hjump, heq, List.append_cons] at hE
    rw [hagenda, hstill.env]
    refine envAfter_of_dropped (List.forall_mem_append.mpr ⟨fun item hitem => ?_, ?_⟩) hE
    · exact (Item.isPassed_iff.mp (hdropped item hitem)).2
    · exact List.forall_mem_singleton.mpr rfl
  | @stopped i target item rest htarget hsearch hagenda hstash hstill =>
    obtain ⟨dropped, env, closesCall, -, rfl, heq⟩ := eq_of_searchLoop_scope hsearch
    have hjump : (Item.instr i).Steady := by cases i <;> first | exact fun _ => rfl | cases htarget
    have hE : Agenda.envAfter ((Item.instr i).envAfter (some s.env)) s.agenda = some E := hE
    rw [heq, envAfter_append] at hE
    have hrest : Agenda.envAfter (some env) rest = some E := hE
    rw [hagenda]
    show Agenda.envAfter ((Item.instr i).envAfter (some env)) rest = some E
    rw [hjump, hrest]
  | call hoperands houtcome =>
    exact houtcome.envAfter hE fun k => one_lt_of_not_invokes hoperands hnone
  | callCc hoperands houtcome =>
    exact houtcome.envAfter hE fun k hk => absurd hk (ne_continuation_of_not_invokes hoperands hnone k)
  | callCcTwice hoperands houtcome => exact absurd (invokes_of_callCcTwice hoperands) (hnone _ _)

/-! ## 2. Runs -/

end Machine

theorem Agenda.Tidy.of_append {a b : Agenda} (hb : b.endsScope = false) (h : Agenda.Tidy (a ++ b)) : a.Tidy := by
  induction a with
  | nil => trivial
  | cons item a ih =>
    obtain ⟨hrestore, hmarker, hrest⟩ := h
    exact ⟨fun hitem => (endsScope_append hb a).symm.trans (hrestore hitem),
      fun hitem => (endsCall_append hb a).symm.trans (hmarker hitem), ih hrest⟩

/-- A `return` outside of any function drops all work. -/
def State.Leaves (s : State) : Prop :=
  ∃ rest, s.agenda = .instr .reset :: rest ∧ .instr (.marker .call) ∉ rest

namespace Machine

open Agenda

theorem agenda_of_reset {p : Setting} {s s' : State} (h : Move p s s' (.instr .reset)) :
    s'.agenda = unwindCall s.agenda := by
  cases h with
  | reset hagenda hstash hstill => exact hagenda
  | instr hplain hoffered hagenda hstill => cases hplain
  | reached htarget hsearch hagenda hstash hstill => cases htarget
  | stopped htarget hsearch hagenda hstash hstill => cases htarget

/-- From `s` the machine comes to the work `b` in `n` items.  Until then `b` stays where it is, with other work
in front, and no continuation is invoked. -/
structure Evaluates (p : Setting) (b : Agenda) (n : Nat) (s s' : State) : Prop where
  run : travel p n s = .running s'
  agenda : s'.agenda = b
  inside : ∀ j < n, ∀ r, travel p j s = .running r → r.agenda ≠ b ∧ b <:+ r.agenda ∧ ∀ k v, ¬r.Invokes k v

/-- The machine is in front of the work `b`, and when all the work in front has been done, there is one value on
`base`, and the calls are `below`. -/
structure InFront (t : Tree) (b : Agenda) (base : Stash) (below : CallStack) (a : Agenda) (s : State) : Prop where
  values : ∃ n, s.Pends t b base a n
  calls : below.Under s.calls

section

variable {σ : Type} {t : Tree} {config : Config} {hosts : List EmbeddedFunction} {output : Output}
  {clock : Nat → Nat} {rule : PauseRule σ} {memory : σ} {s s' : State} {b : Agenda} {base : Stash}
  {below : CallStack} {E : Env}

theorem inFront_advance (ht : t.WellPlaced) (hb : b.endsScope = false) (hbelow : below.depth = b.closers)
    (hs : (build t config hosts output clock rule memory).Reaches s) {a : Agenda} (h : InFront t b base below a s)
    (hagenda : s.agenda ≠ b) (hnone : ∀ k v, ¬s.Invokes k v)
    (hrun : advance (build t config hosts output clock rule memory).setting s = .running s')
    (hkept : b <:+ s'.agenda) :
    ∃ a', InFront t b base below a' s' ∧ ((b ≠ [] ∨ ¬s.Leaves) → Agenda.envAfter (some s.env) a = some E →
      Agenda.envAfter (some s'.env) a' = some E) := by
  obtain ⟨⟨n, hpends⟩, hcalls⟩ := h
  cases a with
  | nil => exact absurd hpends.agenda hagenda
  | cons item a =>
    have hpending : s.agenda = item :: (a ++ b) := hpends.agenda
    have hmove := move_of_advance hpending hrun
    -- The step is one of the work in front alone.
    have hcalm : ∀ a, ∀ k v, ¬State.Invokes { s with agenda := item :: a } k v := fun a =>
      not_invokes_cons hpending hnone
    obtain ⟨a', kept, hagenda', habove⟩ := Move.above (s := { s with agenda := a ++ b }) hb rfl hmove (hcalm _) hkept
    have hdepth : below.depth + closers (item :: a) = s.calls.depth := by
      rw [← hs.balanced.now.equal ht, hpending, hbelow, ← List.cons_append, closers_append, Nat.add_comm]
    have hlive : 0 < closers (item :: a) → below.depth < s.calls.depth := fun hpos => by omega
    refine ⟨a', ⟨pends_advance (s := s) ht hpends habove hagenda' hnone, habove.under hcalls hlive (hcalm a)⟩,
      fun hstays hE => habove.envAfter ?_ (hcalm a) ?_ hE⟩
    · have htidy := hs.tidy.agenda
      rw [hpending] at htidy
      exact Tidy.of_append hb htidy.2.2
    · rintro rfl
      rw [agenda_of_reset hmove] at hkept
      by_cases hnil : b = []
      · subst hnil
        by_contra hmarker
        exact hstays.resolve_left (fun h => h rfl) ⟨a, by rw [hpending, List.append_nil], hmarker⟩
      · exact mem_marker_of_suffix hnil hkept

theorem inFront_run (ht : t.WellPlaced) (hb : b.endsScope = false) (hbelow : below.depth = b.closers) {n : Nat}
    {a : Agenda} (hs : (build t config hosts output clock rule memory).Reaches s) (h : InFront t b base below a s)
    (hrun : Evaluates (build t config hosts output clock rule memory).setting b n s s') :
    ∃ a', InFront t b base below a' s' ∧
      ((b ≠ [] ∨ ∀ j < n, ∀ r, travel (build t config hosts output clock rule memory).setting j s = .running r →
          ¬r.Leaves) → Agenda.envAfter (some s.env) a = some E → Agenda.envAfter (some s'.env) a' = some E) := by
  obtain ⟨hrun, hend, hinside⟩ := hrun
  -- By induction on the steps that are left; `b` is there behind the first of them, as the run is inside or ends.
  induction n generalizing s a with
  | zero =>
    cases hrun
    exact ⟨a, h, fun _ hE => hE⟩
  | succ n ih =>
    rw [travel_succ] at hrun
    cases ha : advance (build t config hosts output clock rule memory).setting s with
    | running s₁ =>
      rw [ha] at hrun
      have hinside' : ∀ j < n, ∀ r, travel (build t config hosts output clock rule memory).setting j s₁ =
          .running r → r.agenda ≠ b ∧ b <:+ r.agenda ∧ ∀ k v, ¬r.Invokes k v := fun j hj r hr =>
        hinside (j + 1) (Nat.succ_lt_succ hj) r (by rw [travel_succ, ha]; exact hr)
      have hkept : b <:+ s₁.agenda := by
        cases n with
        | zero => cases hrun; exact hend ▸ List.suffix_refl b
        | succ n => exact (hinside' 0 (Nat.succ_pos n) s₁ rfl).2.1
      obtain ⟨hagenda, -, hnone⟩ := hinside 0 (Nat.succ_pos n) s rfl
      obtain ⟨a₁, h₁, henv₁⟩ := inFront_advance (E := E) ht hb hbelow hs h hagenda hnone ha hkept
      obtain ⟨a', h', henv'⟩ := ih (hs.advance ha) h₁ hrun hinside'
      refine ⟨a', h', fun hstays hE => henv' ?_ (henv₁ ?_ hE)⟩
      · exact hstays.imp_right fun hstays j hj r hr =>
          hstays (j + 1) (Nat.succ_lt_succ hj) r (by rw [travel_succ, ha]; exact hr)
      · exact hstays.imp_right fun hstays => hstays 0 (Nat.succ_pos n) s rfl
    | finished v s₁ => rw [ha] at hrun; cases hrun
    | failed e s₁ => rw [ha] at hrun; cases hrun

end

/-! ## 3. What is left in the end -/

end Machine

/-- The stash has as many values as the work goes on with, and so it will have for every captured continuation
that gets its value. -/
structure State.Counts (t : Tree) (s : State) : Prop where
  now : s.agenda.Awaits t s.stash.length
  kept : ∀ k ∈ s.snapshots, k.agenda.Awaits t (k.stash.length + 1)

namespace Machine

open Agenda

variable {p : Setting} {s s' : State}

theorem State.Counts.captured {t : Tree} (hnow : s.agenda.Awaits t (s.stash.length + 1))
    (hkept : ∀ k ∈ s.snapshots, k.agenda.Awaits t (k.stash.length + 1)) :
    ∀ k ∈ s.captured.snapshots, k.agenda.Awaits t (k.stash.length + 1) := by
  intro k hk
  obtain hk | rfl := Array.mem_push.mp hk
  · exact hkept k hk
  · exact hnow

theorem Call.counts (ht : p.tree.WellPlaced) {callee : Value} {args : List Value} (h : Call p s s' callee args)
    (hnow : s.agenda.Awaits p.tree (s.stash.length + 1))
    (hkept : ∀ k ∈ s.snapshots, k.agenda.Awaits p.tree (k.stash.length + 1)) : s'.Counts p.tree := by
  cases h with
  | @enter identity f fname params code frame name node receiver hclosure hkind harity hagenda hstash hcalls
      hsnapshots hmade hnames =>
    refine ⟨?_, hsnapshots ▸ hkept⟩
    obtain ⟨a, hclosing, ha⟩ := Beneath.nothing.closing hnow s.env
    rw [List.append_nil, List.append_nil] at hclosing
    rw [hagenda, hstash, hclosing, Awaits, List.append_assoc]
    exact expects_bodyItems ht hkind ha
  | answer hagenda hstash hstill =>
    refine ⟨?_, hstill.snapshots ▸ hkept⟩
    rw [hagenda, hstash]
    exact hnow
  | @invoke k kept hcontinuation harity hfound hregisters hscopes hsnapshots =>
    refine ⟨?_, hsnapshots ▸ hkept⟩
    rw [show s'.agenda = kept.agenda from congrArg Snapshot.agenda hregisters,
      show s'.stash = _ :: kept.stash from congrArg Snapshot.stash hregisters]
    exact hkept kept (Array.mem_of_getElem? hfound)

/-- Every step keeps the count, also where a continuation is captured or invoked. -/
theorem counts_advance (ht : p.tree.WellPlaced) {item : Item} {a : Agenda} (hs : s.Counts p.tree)
    (hagenda : s.agenda = item :: a) (hrun : advance p s = .running s') : s'.Counts p.tree := by
  have hmove := move_of_advance hagenda hrun
  have hawaits : Awaits p.tree (item :: a) s.stash.length := hagenda ▸ hs.now
  -- Only a call captures or invokes a continuation.
  by_cases happly : ∃ arity hasReceiver node, item = .instr (.apply arity hasReceiver node)
  · obtain ⟨arity, hasReceiver, node, rfl⟩ := happly
    have hexpects : Expects p.tree (.instr (.apply arity hasReceiver node) :: (a ++ [.instr (.marker .call)]))
        s.stash.length := hawaits
    obtain ⟨n, hn, hbehind, -⟩ := hexpects.behind
    have hbehind : Awaits p.tree a (n + 1) := hbehind
    have hover : State.Over [] (n + (arity + 1 + hasReceiver.toNat)) { s with agenda := a } :=
      ⟨List.nil_suffix, hn.trans (Nat.zero_add _).symm⟩
    have operands : ∀ {stash : Stash}, State.Over [] n { s with agenda := a, stash } → n = stash.length := fun h =>
      (h.size.trans (Nat.zero_add n)).symm
    cases hmove with
    | call hoperands houtcome =>
      have hlength := operands (over_operands hoperands hover)
      subst hlength
      exact houtcome.counts ht hbehind hs.kept
    | @callCc callee receiver stash node hoperands houtcome =>
      have hlength := operands (over_operands (show _ = [callee].reverse ++ _ from hoperands) hover)
      subst hlength
      exact houtcome.counts ht hbehind (State.Counts.captured hbehind hs.kept)
    | @callCcTwice receiver stash node hoperands houtcome =>
      have hlength := operands (over_operands (show _ = [Value.callCc].reverse ++ _ from hoperands) hover)
      subst hlength
      exact houtcome.counts ht hbehind
        (State.Counts.captured (s := State.captured { s with agenda := a, stash }) hbehind
          (State.Counts.captured (s := { s with agenda := a, stash }) hbehind hs.kept))
    | instr hplain hoffered hagenda' hstill => cases hplain
    | reached htarget hsearch hagenda' hstash hstill => cases htarget
    | stopped htarget hsearch hagenda' hstash hstill => cases htarget
  · have hitem : ∀ arity hasReceiver node, item ≠ .instr (.apply arity hasReceiver node) :=
      fun arity hasReceiver node h => happly ⟨arity, hasReceiver, node, h⟩
    have hnone : ∀ k v, ¬s.Invokes k v := by
      rintro k v ⟨args, callee, receiver, node, rest, stash, hnext, -⟩
      exact hitem _ _ _ (List.cons.inj (hagenda.symm.trans hnext)).1
    have hcalm : ∀ k v, ¬State.Invokes { s with agenda := item :: a } k v := not_invokes_cons hagenda hnone
    have hover : State.Over [] s.stash.length { s with agenda := a } := ⟨List.nil_suffix, (Nat.zero_add _).symm⟩
    obtain ⟨n, hawaits', hover'⟩ := hmove.awaits ht hawaits hover hcalm
    have hlength : n = s'.stash.length := (hover'.size.trans (Nat.zero_add n)).symm
    subst hlength
    exact ⟨hawaits', hmove.snapshots_eq hitem ▸ hs.kept⟩

section

variable {σ : Type} (t : Tree) (config : Config) (hosts : List EmbeddedFunction) (output : Output)
  (clock : Nat → Nat) (rule : PauseRule σ) (memory : σ)

theorem Reaches.counts {t : Tree} {config : Config} {hosts : List EmbeddedFunction} {output : Output}
    {clock : Nat → Nat} {rule : PauseRule σ} {memory : σ} (ht : t.WellPlaced)
    (hs : (build t config hosts output clock rule memory).Reaches s) : s.Counts t :=
  hs.induct ⟨awaits_node t t.root, fun _ h => absurd h (Array.not_mem_empty _)⟩
    fun _ _ _ _ _ hcounts hagenda hrun _ => counts_advance ht hcounts hagenda hrun

/-- Evaluation is balanced.  A node is evaluated in front of the work `b`, which does not begin with the end of a
scope or of a call.  If the machine comes to `b`, which has been there all the time, without invoking a
continuation, then there is one value on the stash that the node has found, the calls are as they were, and so is
the current environment, unless `b` is empty and a `return` outside of any function has dropped all work.  A
program that ends leaves one value, whatever continuations it has invoked. -/
theorem evaluation_balanced (ht : t.WellPlaced) :
    let m := build t config hosts output clock rule memory
    (∀ (s s' : State) (id : NodeId) (b : Agenda) (n : Nat), m.Reaches s → s.agenda = .node id :: b →
      b.endsScope = false → Evaluates m.setting b n s s' →
        (∃ v, s'.stash = v :: s.stash) ∧ s'.calls = s.calls ∧
          ((b ≠ [] ∨ ∀ j < n, ∀ r, travel m.setting j s = .running r → ¬r.Leaves) → s'.env = s.env)) ∧
      ∀ (n : Nat) (v : Value) (s : State), (m.runThrough n).progress = .finished v s → s.stash = [v] := by
  refine ⟨fun s s' id b n hs hagenda hb hrun => ?_, fun n v s hfinished => ?_⟩
  · have hdepth : s.calls.depth = b.closers := by
      rw [← hs.balanced.now.equal ht, hagenda, closers_cons]
      rfl
    have hstart : InFront t b s.stash s.calls [.node id] s :=
      ⟨⟨0, hagenda, awaits_node t id, List.suffix_refl _, rfl⟩, List.prefix_refl _, rfl, rfl⟩
    obtain ⟨a', ⟨⟨k, hpends⟩, hcalls⟩, henv⟩ := inFront_run (E := s.env) ht hb hdepth hs hstart hrun
    obtain rfl : a' = [] := List.self_eq_append_left.mp (hrun.agenda.symm.trans hpends.agenda)
    obtain rfl := hpends.awaits.nil
    refine ⟨hpends.values.exists_cons, hcalls.eq ?_, fun hstays => Option.some.inj (henv hstays rfl)⟩
    have hs' : (build t config hosts output clock rule memory).Reaches s' := hs.travel hrun.run
    rw [hdepth, ← hs'.balanced.now.equal ht, hrun.agenda]
  · obtain ⟨k, -, hk⟩ := exists_travel (build t config hosts output clock rule memory) n
    have hcounts := (reaches_of_finished hfinished).counts ht
    rw [hk] at hfinished
    obtain ⟨hend, hresult⟩ := travelBy_finished_agenda hfinished
    have hone : s.stash.length = 1 := Awaits.nil (hend ▸ hcounts.now)
    obtain ⟨w, hw⟩ := List.length_eq_one_iff.mp hone
    rw [hresult, State.result, hw]
    rfl

end

/-! ### Two programs -/

end Machine

def State.isCalm (s : State) : Bool :=
  match s.agenda, s.stash with
  | [], _ => false
  | .instr (.apply 0 false _) :: _, .closure .. :: _ => true
  | .instr (.apply ..) :: _, _ => false
  | _ :: _, _ => true

theorem State.not_invokes_of_isCalm {s : State} (h : s.isCalm = true) : s.agenda ≠ [] ∧ ∀ k v, ¬s.Invokes k v := by
  refine ⟨fun hnil => ?_, fun k v ⟨args, callee, receiver, node, rest, stash, hagenda, hstash, hinvoked⟩ => ?_⟩
  · rw [isCalm, hnil] at h
    cases h
  · unfold isCalm at h
    split at h
    next hnil => rw [hnil] at hagenda; cases hagenda
    next node' rest' identity f stash' hagenda' hstash' =>
      rw [hagenda] at hagenda'
      obtain ⟨⟨hargs, hreceiver, -⟩, -⟩ : (args.length = 0 ∧ receiver.isSome = false ∧ _) ∧ _ := by
        simpa using hagenda'
      obtain rfl := List.eq_nil_of_length_eq_zero hargs
      obtain rfl : receiver = none := by simpa using hreceiver
      rw [hstash'] at hstash
      obtain ⟨rfl, -⟩ := List.cons.inj hstash
      cases hinvoked
    next => cases h
    next hother hnext _ =>
      rw [hagenda] at hnext
      exact hother _ _ _ (List.cons.inj hnext).1.symm

namespace Machine

open Agenda

/-- A run that comes to the end calmly. -/
theorem evaluates_of_isCalm {p : Setting} {n : Nat} {s : State}
    (hcalm : ∀ j < n, (travel p j s).state.isCalm = true) (hrun : (travel p n s).isRunning = true)
    (hend : (travel p n s).state.agenda.isEmpty = true) : Evaluates p [] n s (travel p n s).state := by
  refine ⟨Progress.eq_running hrun, List.isEmpty_iff.mp hend, fun j hj r hr => ?_⟩
  have h := hcalm j hj
  rw [hr] at h
  obtain ⟨hagenda, hnone⟩ := State.not_invokes_of_isCalm h
  exact ⟨hagenda, List.nil_suffix, hnone⟩

theorem evaluation_balanced_sample :
    let m := build .sample .standard [] default (fun _ => 0) .never ()
    Tree.sample.WellPlaced ∧ ∃ s s', m.Reaches s ∧ s.agenda = [.node Tree.sample.root] ∧
      Evaluates m.setting [] 9 s s' ∧ (∃ v, s'.stash = v :: s.stash) ∧ s'.calls = s.calls := by
  intro m
  have hrun : Evaluates m.setting [] 9 m.state (travel m.setting 9 m.state).state :=
    evaluates_of_isCalm (by decide +kernel) (by decide +kernel) (by decide +kernel)
  have hbalanced := (evaluation_balanced .sample .standard [] default (fun _ => 0) .never ()
    Tree.sample_wellPlaced).1 m.state _ _ [] 9 (reaches_start m) rfl rfl hrun
  exact ⟨Tree.sample_wellPlaced, m.state, _, reaches_start m, rfl, hrun, hbalanced.1, hbalanced.2.1⟩

end Machine

def Tree.leaving : Tree where
  names := ⟨#["", "x"]⟩
  nodes := #[⟨.returnStatement none, .dummy⟩, ⟨.literal (.bool true), .dummy⟩,
    ⟨.declaration .constKind ⟨1⟩ ⟨1⟩, .dummy⟩, ⟨.program [⟨0⟩, ⟨2⟩], .dummy⟩]
  root := ⟨3⟩
  accepted := by decide

namespace Machine

/-- A `return` outside of any function leaves the environment of the program current. -/
theorem unbalanced_of_return :
    let m := build .leaving .standard [] default (fun _ => 0) .never ()
    Tree.leaving.WellPlaced ∧ Tree.leaving.DeclaresInPlace ∧ ∃ s s', m.Reaches s ∧
      s.agenda = [.node Tree.leaving.root] ∧ Agenda.endsScope [] = false ∧ Evaluates m.setting [] 4 s s' ∧
        s'.env ≠ s.env := by
  intro m
  have hrun : Evaluates m.setting [] 4 m.state (travel m.setting 4 m.state).state :=
    evaluates_of_isCalm (by decide +kernel) (by decide +kernel) (by decide +kernel)
  have hframe : (travel m.setting 4 m.state).state.env.frame = 1 := by decide +kernel
  refine ⟨by decide, by decide, m.state, _, reaches_start m, rfl, rfl, hrun, fun henv => ?_⟩
  rw [henv] at hframe
  cases hframe

end Machine

end ExplicitControl
