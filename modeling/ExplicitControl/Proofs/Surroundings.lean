import ExplicitControl.Proofs.Enclosure
import ExplicitControl.Proofs.Origins

/-!
# Work stands in its scopes

Everything that a run has still to do stands in scopes that its environment mirrors: the pending work in those of the
current environment, the work of a captured continuation in those of the environment that it brings back, and the
body of a function in those of the environment that it is closed over.  Each move keeps it so.
-/

namespace ExplicitControl

namespace Machine

variable {σ : Type}

def Within (m : Machine σ) (size : Nat) (env : Env) (scopes : List NodeId) : Prop :=
  env.frame < size ∧ m.Mirrors env scopes

/-- The work stands in scopes that the environment mirrors. -/
def Stands (m : Machine σ) (size : Nat) (env : Env) (a : Agenda) : Prop :=
  ∃ scopes, m.Within size env scopes ∧ a.Nested m.setting.tree (m.Within size) scopes

def ClosedOver (m : Machine σ) (size : Nat) : Value → Prop
  | .closure _ f => ∃ scopes, m.setting.tree.Scoped f.node scopes ∧ m.Within size f.env scopes
  | _ => True

end Machine

/-- The function makes no functions of a program: whatever all that is no function of a program satisfies, it keeps. -/
def EmbeddedFunction.Honest (f : EmbeddedFunction) : Prop :=
  ∀ P : Value → Prop, (∀ v, v.isInert = true → P v) → (∀ k, P (.continuation k)) → f.Keeps P

structure State.Surrounded {σ : Type} (m : Machine σ) (s : State) : Prop where
  now : m.Stands s.scopes.frames.size s.env s.agenda
  kept : ∀ k ∈ s.snapshots, m.Stands s.scopes.frames.size k.env k.agenda
  values : s.All (m.ClosedOver s.scopes.frames.size)

namespace Machine

open Agenda

variable {σ : Type} {m : Machine σ} {s s' : State} {size size' : Nat} {scopes : List NodeId} {rest : Agenda}

/-! ## 1. More frames -/

theorem Within.mono (hle : size ≤ size') {env : Env} (h : m.Within size env scopes) : m.Within size' env scopes :=
  ⟨Nat.lt_of_lt_of_le h.1 hle, h.2⟩

theorem Stands.mono (hle : size ≤ size') {env : Env} {a : Agenda} (h : m.Stands size env a) : m.Stands size' env a := by
  obtain ⟨scopes, hwithin, hnested⟩ := h
  exact ⟨scopes, hwithin.mono hle, hnested.mono fun _ _ => Within.mono hle⟩

theorem ClosedOver.mono (hle : size ≤ size') {v : Value} (h : m.ClosedOver size v) : m.ClosedOver size' v := by
  cases v with
  | closure identity f =>
    obtain ⟨scopes, hscoped, hwithin⟩ := h
    exact ⟨scopes, hscoped, hwithin.mono hle⟩
  | _ => trivial

theorem closedOver_of_isInert {v : Value} (h : v.isInert = true) : m.ClosedOver size v := by
  cases v with
  | closure identity f => cases h
  | _ => trivial

/-- In a scope that has just been entered, the new frame and those around it mirror it and those around. -/
theorem Within.entered {env outer : Env} {scope : NodeId} (henv : env.frame = size) (hmade : m.Made size scope outer)
    (houter : m.Within size outer scopes) : m.Within (size + 1) env (scope :: scopes) :=
  ⟨henv ▸ Nat.lt_succ_self _, .scope (henv ▸ .made hmade) (henv ▸ houter.1) houter.2⟩

/-! ## 2. One step -/

section

variable (hplace : m.setting.tree.DeclaresInPlace) (hheads : m.setting.tree.HeadsDeclareVariables)
include hplace hheads

/-- The work of a node that makes no frame stands where the node does. -/
theorem nested_plain {C : Env → List NodeId → Prop} {id : NodeId} {kind : NodeKind}
    (hkind : m.setting.tree.kind? id = some kind) (hopened : m.setting.tree.opened kind = [])
    (h : Nested m.setting.tree C scopes (.node id :: rest)) :
    Nested m.setting.tree C scopes (kindItems m.setting id kind ++ (kind.padding ++ rest)) := by
  obtain ⟨hitem, hrest⟩ := h.tail rfl
  have hid : m.setting.tree.Scoped id scopes := hitem.evaluated id (List.mem_singleton_self id)
  by_cases hfunction : ∃ name params code, kind = .function name params code
  · -- A function is a value at once.
    obtain ⟨name, params, code, rfl⟩ := hfunction
    exact hrest
  · have hwithin := Tree.within_of_plain hkind hopened
      (fun name params code h => hfunction ⟨name, params, code, h⟩) scopes
    have hitems := nested_kindItems hplace hheads hid hkind
    rw [hwithin] at hitems
    exact (hrest.append (nested_padding kind scopes)).append hitems

/-- The work of a node that makes a frame stands in the scope of the node. -/
theorem nested_scope {C : Env → List NodeId → Prop} {env : Env} {id : NodeId} {kind : NodeKind}
    (hkind : m.setting.tree.kind? id = some kind) (hopened : m.setting.tree.opened kind ≠ []) (henv : C env scopes)
    (h : Nested m.setting.tree C scopes (.node id :: rest)) :
    Nested m.setting.tree C (id :: scopes)
      (kindItems m.setting id kind ++ Agenda.opening env (kind.padding ++ rest)) := by
  obtain ⟨hitem, hrest⟩ := h.tail rfl
  have hid : m.setting.tree.Scoped id scopes := hitem.evaluated id (List.mem_singleton_self id)
  have hwithin : m.setting.tree.within id scopes = id :: scopes := by
    rw [Tree.within, Tree.isScope_of_opened hkind hopened]
    rfl
  have hitems := nested_kindItems hplace hheads hid hkind
  rw [hwithin] at hitems
  exact ((hrest.append (nested_padding kind scopes)).opening henv (id :: scopes)).append hitems

end

theorem nested_returned {C : Env → List NodeId → Prop} {id : NodeId} {argument : Option NodeId}
    (hkind : m.setting.tree.kind? id = some (.returnStatement argument)) (htidy : rest.Tidy)
    (h : Nested m.setting.tree C scopes (.node id :: rest)) :
    Nested m.setting.tree C scopes (if rest.inTailPosition then returnItem argument :: unwindCall rest
      else returnItem argument :: .instr .reset :: rest) := by
  obtain ⟨hitem, hrest⟩ := h.tail rfl
  have hvalue := nested_returnItem (hitem.evaluated id (List.mem_singleton_self id)) hkind
  have hplain : (returnItem argument).isRestore = false := by cases argument <;> rfl
  split
  · exact .cons hvalue hplain (hrest.unwindCall htidy scopes)
  · exact .cons hvalue hplain (.cons Item.nested_reset rfl hrest)

theorem nested_reached {C : Env → List NodeId → Prop} {target : Marker} {a : Agenda}
    (hsearch : searchLoop target rest = .reached a) (h : Nested m.setting.tree C scopes rest) :
    Nested m.setting.tree C scopes a := by
  obtain ⟨dropped, hdropped, rfl⟩ := eq_of_searchLoop_reached hsearch
  exact ((h.dropped fun item hitem => (Item.isPassed_iff.mp (hdropped item hitem)).2).tail rfl).2

theorem nested_stopped {C : Env → List NodeId → Prop} {i : Instr} {target : Marker} {item : Item} {a : Agenda}
    (htarget : i.target? = some target) (hsearch : searchLoop target rest = .scope item a)
    (h : Nested m.setting.tree C scopes rest) : Nested m.setting.tree C scopes (item :: .instr i :: a) := by
  obtain ⟨dropped, env, closesCall, -, rfl, rfl⟩ := eq_of_searchLoop_scope hsearch
  obtain ⟨scopes', henv, hrest⟩ := h.suffix_restore
  exact .restore henv (.cons (Item.nested_jump htarget) (Item.not_isRestore_of_target htarget) hrest)

/-- A copy of the current frame belongs where the current frame does. -/
theorem Within.copied {vars : List Name} (hvars : vars ≠ []) (hs : m.Reaches s)
    (hrun : advance m.setting s = .running s') (hagenda : s.agenda = .instr (.freshTrip vars) :: rest) {f : Frame}
    (hmade : s.Makes f s') (hitem : (Item.instr (.freshTrip vars)).Nested m.setting.tree scopes)
    (h : m.Within s.scopes.frames.size s.env scopes) : m.Within s'.scopes.frames.size s'.env scopes := by
  obtain ⟨scope, outer, rfl, -⟩ := hitem.copies hvars
  obtain ⟨hlt, hmirrors⟩ := h
  have hsize : s'.scopes.frames.size = s.scopes.frames.size + 1 := by rw [hmade.frames, Array.size_push]
  cases hmirrors with
  | scope hbelongs holder houter =>
    have hcopies : m.Copies s'.env.frame s.env.frame :=
      ⟨s, s', vars, rest, ⟨hs, hrun, hmade.env.symm, by rw [hsize, hmade.env]⟩, hagenda, rfl⟩
    refine ⟨by rw [hmade.env, hsize]; exact Nat.lt_succ_self _, .scope (.copied hcopies hbelongs) ?_ houter⟩
    rw [hmade.env]
    exact Nat.lt_trans holder hlt

/-- Calls keep work in its scopes. -/
theorem Call.stands {s₁ : State} {args : List Value} {callee : Value} (h : Call m.setting s₁ s' callee args)
    (hs : m.Reaches s) (hrun : advance m.setting s = .running s') (hscopes : s₁.scopes = s.scopes)
    (hnext : s₁.nextEnvId = s.nextEnvId) (happlies : ∀ f, callee.applied? args = some f → s.Applies f)
    (hnow : m.Stands s.scopes.frames.size s₁.env s₁.agenda)
    (hkept : ∀ k ∈ s₁.snapshots, m.Stands s.scopes.frames.size k.env k.agenda)
    (hcallee : m.ClosedOver s.scopes.frames.size callee) :
    m.Stands s'.scopes.frames.size s'.env s'.agenda ∧
      ∀ k ∈ s'.snapshots, m.Stands s'.scopes.frames.size k.env k.agenda := by
  cases h with
  | @enter identity f fname params code frame name node receiver hclosure hkind harity hagenda hstash hcalls
      hsnapshots hmade hnames =>
    subst hclosure
    obtain ⟨scopes, hscoped, hwithin⟩ := hcallee
    have hmade : s.Makes _ s' := hmade.congr hscopes hnext
    have hsize : s'.scopes.frames.size = s.scopes.frames.size + 1 := by rw [hmade.frames, Array.size_push]
    rw [hsize, hagenda, hsnapshots]
    have hframe : m.Made s.scopes.frames.size f.node f.env := made_of_makes hs hrun (.call (happlies f rfl)) hmade
    refine ⟨⟨f.node :: scopes, hwithin.entered hmade.env hframe, ?_⟩, fun k hk => (hkept k hk).mono (Nat.le_succ _)⟩
    obtain ⟨outside, houtside, hrest⟩ := hnow.mono (Nat.le_succ s.scopes.frames.size)
    exact (hrest.closing houtside (f.node :: scopes)).append (nested_bodyItems hscoped hkind)
  | answer hagenda hstash hstill =>
    rw [hstill.scopes, hscopes, hstill.env, hagenda, hstill.snapshots]
    exact ⟨hnow, hkept⟩
  | @invoke k kept hcontinuation harity hfound hregisters hscopes' hsnapshots =>
    rw [hscopes', hscopes, hsnapshots, show s'.env = kept.env from congrArg Snapshot.env hregisters,
      show s'.agenda = kept.agenda from congrArg Snapshot.agenda hregisters]
    exact ⟨hkept kept (Array.mem_of_getElem? hfound), hkept⟩

theorem stands_captured (hnow : m.Stands size s.env s.agenda)
    (hkept : ∀ k ∈ s.snapshots, m.Stands size k.env k.agenda) :
    ∀ k ∈ s.captured.snapshots, m.Stands size k.env k.agenda := by
  intro k hk
  obtain hk | rfl := Array.mem_push.mp hk
  · exact hkept k hk
  · exact hnow

/-- A move leaves work in its scopes, and so does it the work of continuations. -/
theorem Move.stands (hplace : m.setting.tree.DeclaresInPlace) (hheads : m.setting.tree.HeadsDeclareVariables)
    {item : Item}
    (hmove : Move m.setting { s with agenda := rest } s' item) (hs : m.Reaches s)
    (hrun : advance m.setting s = .running s') (hagenda : s.agenda = item :: rest) (htidy : rest.Tidy)
    (h : s.Surrounded m) :
    m.Stands s'.scopes.frames.size s'.env s'.agenda ∧
      ∀ k ∈ s'.snapshots, m.Stands s'.scopes.frames.size k.env k.agenda := by
  have hle := (hmove.change hagenda).size_le
  have hkept : ∀ k ∈ s.snapshots, m.Stands s'.scopes.frames.size k.env k.agenda := fun k hk => (h.kept k hk).mono hle
  obtain ⟨scopes, hwithin, hnested⟩ := h.now
  rw [hagenda] at hnested
  have hnested' : Nested m.setting.tree (m.Within s'.scopes.frames.size) scopes (item :: rest) :=
    hnested.mono fun _ _ => Within.mono hle
  -- The environment is the same, and the work stands in the same scopes.
  have stays : ∀ {a : Agenda}, s'.env = s.env → s'.snapshots = s.snapshots →
      Nested m.setting.tree (m.Within s'.scopes.frames.size) scopes a → s'.agenda = a →
      m.Stands s'.scopes.frames.size s'.env s'.agenda ∧
        ∀ k ∈ s'.snapshots, m.Stands s'.scopes.frames.size k.env k.agenda := by
    rintro a henv hsnapshots ha rfl
    rw [henv, hsnapshots]
    exact ⟨⟨scopes, hwithin.mono hle, ha⟩, hkept⟩
  have behind : item.isRestore = false → m.Stands s.scopes.frames.size s.env rest := fun hplain =>
    ⟨scopes, hwithin, (hnested.tail hplain).2⟩
  cases hmove with
  | plain hkind hopened hgoes hagenda' hstill =>
    exact stays hstill.env hstill.snapshots (nested_plain hplace hheads hkind hopened hnested') hagenda'
  | @scope id kind name hkind hopened hagenda' hcalls hsnapshots hmade hnames =>
    have hmade : s.Makes _ s' := ⟨hmade.handle, hmade.frames, hmade.next⟩
    have hsize : s'.scopes.frames.size = s.scopes.frames.size + 1 := by rw [hmade.frames, Array.size_push]
    rw [hsnapshots, hagenda']
    refine ⟨⟨id :: scopes, ?_, nested_scope hplace hheads hkind hopened (hwithin.mono hle) hnested'⟩, hkept⟩
    rw [hsize]
    exact hwithin.entered hmade.env (made_of_makes hs hrun (.node hagenda) hmade)
  | returned hkind hagenda' hstash hstill =>
    exact stays hstill.env hstill.snapshots (nested_returned hkind htidy hnested') hagenda'
  | @instr i items hplain hoffered hagenda' hstill =>
    have hitem : (Item.instr i).isRestore = false := by cases i <;> first | rfl | cases hplain
    obtain ⟨hitem, hrest⟩ := hnested'.tail hitem
    exact stays hstill.env hstill.snapshots (hrest.append (nested_offers hitem hoffered)) hagenda'
  | assign howner hslot hvalue hmutability hagenda' henv hcalls hsnapshots hscopes =>
    exact stays henv hsnapshots (hnested'.tail rfl).2 hagenda'
  | declare howner hagenda' henv hcalls hsnapshots hscopes =>
    exact stays henv hsnapshots (hnested'.tail rfl).2 hagenda'
  | freshTrip hvars hagenda' hcalls hsnapshots hmade =>
    obtain ⟨hitem, hrest⟩ := hnested'.tail rfl
    rw [hsnapshots, hagenda']
    exact ⟨⟨scopes, hwithin.copied hvars hs hrun hagenda ⟨hmade.handle, hmade.frames, hmade.next⟩ hitem, hrest⟩, hkept⟩
  | restore hagenda' hstash henv hcalls hscopes hsnapshots =>
    obtain ⟨scopes', henv', hrest⟩ := hnested'.behind
    rw [hsnapshots, hagenda', henv]
    exact ⟨⟨scopes', henv', hrest⟩, hkept⟩
  | reset hagenda' hstash hstill =>
    exact stays hstill.env hstill.snapshots ((hnested'.tail rfl).2.unwindCall htidy scopes) hagenda'
  | @reached i target a htarget hsearch hagenda' hstash hstill =>
    have hrest := (hnested'.tail (Item.not_isRestore_of_target htarget)).2
    exact stays hstill.env hstill.snapshots (nested_reached hsearch hrest) hagenda'
  | @stopped i target item a htarget hsearch hagenda' hstash hstill =>
    have hrest := (hnested'.tail (Item.not_isRestore_of_target htarget)).2
    exact stays hstill.env hstill.snapshots (nested_stopped htarget hsearch hrest) hagenda'
  | @call args callee receiver stash node hoperands houtcome =>
    have hcallee : callee ∈ s.stash := by
      rw [show s.stash = _ from hoperands]
      exact List.mem_append_right _ List.mem_cons_self
    exact houtcome.stands hs hrun rfl rfl (fun f hf => ⟨_, _, _, _, _, _, hagenda, hoperands, hf⟩) (behind rfl) h.kept
      (h.values.stash callee hcallee)
  | @callCc callee receiver stash node hoperands houtcome =>
    have hcallee : callee ∈ s.stash := by
      rw [show s.stash = _ from hoperands]
      exact List.mem_cons_self
    refine houtcome.stands hs hrun rfl rfl (fun f hf => ?_) (behind rfl) (stands_captured (behind rfl) h.kept)
      (h.values.stash callee hcallee)
    refine ⟨[callee], .callCc, receiver, node, rest, stash, hagenda, hoperands, ?_⟩
    cases callee with
    | closure identity g => exact hf
    | _ => cases hf
  | callCcTwice hoperands houtcome =>
    exact houtcome.stands hs hrun rfl rfl (fun f hf => by cases hf) (behind rfl)
      (stands_captured (behind rfl) (stands_captured (behind rfl) h.kept)) trivial

/-- A step keeps everything in its scopes. -/
theorem surrounded_advance (hplace : m.setting.tree.DeclaresInPlace) (hheads : m.setting.tree.HeadsDeclareVariables)
    (hkeeps : ∀ size, m.setting.Keeps (m.ClosedOver size)) {item : Item} (hs : m.Reaches s)
    (hrun : advance m.setting s = .running s') (hagenda : s.agenda = item :: rest) (htidy : rest.Tidy)
    (h : s.Surrounded m) : s'.Surrounded m := by
  have hmove := move_of_advance hagenda hrun
  obtain ⟨hnow, hkept⟩ := hmove.stands hplace hheads hs hrun hagenda htidy h
  obtain ⟨scopes, hwithin, hnested⟩ := h.now
  rw [hagenda] at hnested
  have hvalues : Ensures (execute m.setting item) { s with agenda := rest }
      (fun _ s' => s'.All (m.ClosedOver s.scopes.frames.size)) fun _ _ => True := by
    refine all_execute (fun _ => closedOver_of_isInert) (fun _ => trivial) (hkeeps _) { h.values with } ?_ ?_
    · rintro v rfl
      exact closedOver_of_isInert ((hnested.tail rfl).1.pushes v rfl)
    · rintro id name params code rfl - identity
      exact ⟨scopes, (hnested.tail rfl).1.evaluated id (List.mem_singleton_self id), hwithin⟩
  exact ⟨hnow, hkept, (hvalues.of_advance hagenda hrun).mono fun _ =>
    ClosedOver.mono (hmove.change hagenda).size_le⟩

end Machine

end ExplicitControl
