import ExplicitControl.Proofs.Names
import ExplicitControl.Proofs.Slots

/-!
# Variables under two name tables

Two tables may share the places of a third one, and differ in all others: what has a place in the one has another
place in the other.  Frames whose variables go by the places of the one table and of the other correspond to each
other if they have the same variables for the same texts.  Whatever is done with a name that is shared is done to
corresponding variables and leaves corresponding frames.
-/

namespace ExplicitControl

/-! ## 1. Tables -/

namespace NameTable

def Holds (t : NameTable) (n : Name) : Prop :=
  n.index.toNat < t.size

instance (t : NameTable) (n : Name) : Decidable (t.Holds n) :=
  inferInstanceAs (Decidable (_ < _))

def SameText (t t' : NameTable) (n n' : Name) : Prop :=
  ∃ s, t.strings[n.index.toNat]? = some s ∧ t'.strings[n'.index.toNat]? = some s

/-- Both tables hold the texts of `own` where it does, and none holds a text twice. -/
structure Share (own t t' : NameTable) : Prop where
  left : own.strings.toList <+: t.strings.toList
  right : own.strings.toList <+: t'.strings.toList
  nodupLeft : t.strings.toList.Nodup
  nodupRight : t'.strings.toList.Nodup

variable {own t t' : NameTable} {n m m' : Name}

theorem getElem?_of_begins (h : own.strings.toList <+: t.strings.toList) (hn : own.Holds n) :
    ∃ s, own.strings[n.index.toNat]? = some s ∧ t.strings[n.index.toNat]? = some s := by
  have hlt : n.index.toNat < own.strings.size := hn
  refine ⟨own.strings[n.index.toNat], Array.getElem?_eq_getElem hlt, ?_⟩
  obtain ⟨rest, hrest⟩ := h
  rw [← Array.getElem?_toList, ← hrest, List.getElem?_append_left hlt, Array.getElem?_toList,
    Array.getElem?_eq_getElem hlt]

theorem Share.sameText (h : Share own t t') (hn : own.Holds n) : SameText t t' n n := by
  obtain ⟨s, hs, hleft⟩ := getElem?_of_begins h.left hn
  obtain ⟨s', hs', hright⟩ := getElem?_of_begins h.right hn
  cases hs.symm.trans hs'
  exact ⟨s, hleft, hright⟩

theorem lookup_of_getElem? {s : String} (h : t.strings[n.index.toNat]? = some s) : t.lookup n = s := by
  rw [lookup, Array.getD_eq_getD_getElem?, h]
  rfl

theorem Share.lookup_eq (h : Share own t t') (hn : own.Holds n) : t'.lookup n = t.lookup n := by
  obtain ⟨s, hleft, hright⟩ := h.sameText hn
  rw [lookup_of_getElem? hleft, lookup_of_getElem? hright]

/-- A text has one place in a table that holds none twice. -/
theorem eq_of_text {s : String} (hnodup : t.strings.toList.Nodup) (hn : t.strings[n.index.toNat]? = some s)
    (hm : t.strings[m.index.toNat]? = some s) : n = m := by
  obtain ⟨hn, hns⟩ := Array.getElem?_eq_some_iff.mp hn
  obtain ⟨hm, hms⟩ := Array.getElem?_eq_some_iff.mp hm
  have hn' : n.index.toNat < t.strings.toList.length := hn
  have hm' : m.index.toNat < t.strings.toList.length := hm
  have hplace : n.index.toNat = m.index.toNat := hnodup.getElem_inj_iff.mp
    (show t.strings.toList[n.index.toNat] = t.strings.toList[m.index.toNat] by
      rw [Array.getElem_toList, Array.getElem_toList, hns, hms])
  obtain ⟨n⟩ := n
  obtain ⟨m⟩ := m
  exact congrArg Name.mk (UInt32.toNat_inj.mp hplace)

/-- Nothing but a shared name has the text of that name. -/
theorem Share.eq_iff (h : Share own t t') (hn : own.Holds n) (hm : SameText t t' m m') : m = n ↔ m' = n := by
  obtain ⟨s, hleft, hright⟩ := h.sameText hn
  obtain ⟨s', hmleft, hmright⟩ := hm
  constructor
  · rintro rfl
    cases hleft.symm.trans hmleft
    exact eq_of_text h.nodupRight hmright hright
  · rintro rfl
    cases hright.symm.trans hmright
    exact eq_of_text h.nodupLeft hmleft hleft

end NameTable

open NameTable

variable {own t t' : NameTable}

/-! ## 2. Frames -/

structure Frame.Corresponds (t t' : NameTable) (f f' : Frame) : Prop where
  others : f' = { f with head := f'.head }
  slot? : ∀ n n', SameText t t' n n' → f'.slot? n' = f.slot? n

namespace Frame

variable {f f' : Frame}

theorem slot?_insert (f : Frame) (name name' : Name) (slot : Slot) :
    (f.insert name slot).slot? name' = if name' = name then some slot else f.slot? name' := by
  show List.lookup name' ((name, slot) :: f.head) = _
  by_cases h : name' = name
  · rw [h, List.lookup_cons_self, if_pos rfl]
  · rw [List.lookup_cons, beq_false_of_ne h, if_neg h]
    rfl

/-- A copy has the variables of the names that are copied. -/
theorem slot?_copy_eq (f : Frame) (names : List Name) (name : Name) :
    (f.copy names).slot? name = if name ∈ names then f.slot? name else none := by
  split
  next hname =>
    cases hslot : f.slot? name with
    | some slot => exact slot?_copy_of_mem hname hslot
    | none =>
      cases hcopy : (f.copy names).slot? name with
      | none => rfl
      | some slot => exact (slot?_copy hcopy).2.symm.trans hslot
  next hname =>
    cases hcopy : (f.copy names).slot? name with
    | none => rfl
    | some slot => exact absurd (slot?_copy hcopy).1 hname

namespace Corresponds

theorem tail (h : f.Corresponds t t' f') : f'.tail = f.tail := by rw [h.others]

theorem receiver (h : f.Corresponds t t' f') : f'.receiver = f.receiver := by rw [h.others]

/-- A shared name goes by one place in both frames. -/
theorem shared (hshare : Share own t t') (h : f.Corresponds t t' f') {name : Name} (hname : own.Holds name) :
    f'.slot? name = f.slot? name :=
  h.slot? name name (hshare.sameText hname)

theorem empty (h : f.head = []) : f.Corresponds t t' f :=
  ⟨rfl, fun _ _ _ => by rw [Frame.slot?, Frame.slot?, h]; rfl⟩

theorem insert (hshare : Share own t t') (h : f.Corresponds t t' f') {name : Name} (hname : own.Holds name)
    (slot : Slot) :
    (f.insert name slot).Corresponds t t' (f'.insert name slot) := by
  refine ⟨?_, fun n n' hn => ?_⟩
  · rw [h.others]
    rfl
  · rw [slot?_insert, slot?_insert, h.slot? n n' hn]
    exact if_congr (hshare.eq_iff hname hn).symm rfl rfl

theorem modifySlot (hshare : Share own t t') (h : f.Corresponds t t' f') {name : Name} (hname : own.Holds name)
    (g : Slot → Slot) : (f.modifySlot name g).Corresponds t t' (f'.modifySlot name g) := by
  refine ⟨?_, fun n n' hn => ?_⟩
  · rw [h.others]
    rfl
  · rw [slot?_modifySlot, slot?_modifySlot, h.slot? n n' hn]
    exact if_congr (hshare.eq_iff hname hn).symm rfl rfl

theorem copy (hshare : Share own t t') (h : f.Corresponds t t' f') {names : List Name}
    (hnames : ∀ name ∈ names, own.Holds name) : (f.copy names).Corresponds t t' (f'.copy names) := by
  refine ⟨?_, fun n n' hn => ?_⟩
  · rw [h.others]
    rfl
  · rw [slot?_copy_eq, slot?_copy_eq, h.slot? n n' hn]
    refine if_congr ⟨fun hmem => ?_, fun hmem => ?_⟩ rfl rfl
    · rwa [(hshare.eq_iff (hnames _ hmem) hn).mpr rfl]
    · rwa [(hshare.eq_iff (hnames _ hmem) hn).mp rfl]

end Corresponds

end Frame

/-! ## 3. All frames -/

def Scopes.Corresponds (t t' : NameTable) (s s' : Scopes) : Prop :=
  ∀ i : Nat, Option.Rel (Frame.Corresponds t t') s.frames[i]? s'.frames[i]?

namespace Scopes

variable {s s' : Scopes}

namespace Corresponds

/-- In each place there are two frames or none. -/
theorem here (h : s.Corresponds t t' s') (i : Nat) :
    (s.frames[i]? = none ∧ s'.frames[i]? = none) ∨
      ∃ f f', s.frames[i]? = some f ∧ s'.frames[i]? = some f' ∧ f.Corresponds t t' f' := by
  have h := h i
  generalize s.frames[i]? = x at h ⊢
  generalize s'.frames[i]? = y at h ⊢
  cases h with
  | some hf => exact .inr ⟨_, _, rfl, rfl, hf⟩
  | none => exact .inl ⟨rfl, rfl⟩

theorem size (h : s.Corresponds t t' s') : s'.frames.size = s.frames.size := by
  have hle : ∀ {a b : Array Frame}, (∀ i : Nat, a[i]? = none → b[i]? = none) → b.size ≤ a.size := fun h =>
    Array.getElem?_eq_none_iff.mp (h _ (Array.getElem?_eq_none_iff.mpr (Nat.le_refl _)))
  refine Nat.le_antisymm (hle fun i hi => ?_) (hle fun i hi => ?_)
  · obtain ⟨-, hnone⟩ | ⟨f, f', hf, -, -⟩ := h.here i
    · exact hnone
    · cases hi.symm.trans hf
  · obtain ⟨hnone, -⟩ | ⟨f, f', -, hf', -⟩ := h.here i
    · exact hnone
    · cases hi.symm.trans hf'

theorem push (h : s.Corresponds t t' s') {f f' : Frame} (hf : f.Corresponds t t' f') :
    Scopes.Corresponds t t' ⟨s.frames.push f⟩ ⟨s'.frames.push f'⟩ := by
  intro i
  rw [Array.getElem?_push, Array.getElem?_push, h.size]
  split
  · exact .some hf
  · exact h i

theorem modify (h : s.Corresponds t t' s') (frame : Nat) {g g' : Frame → Frame}
    (hg : ∀ f f', f.Corresponds t t' f' → (g f).Corresponds t t' (g' f')) :
    Scopes.Corresponds t t' ⟨s.frames.modify frame g⟩ ⟨s'.frames.modify frame g'⟩ := by
  intro i
  rw [Array.getElem?_modify, Array.getElem?_modify]
  split
  · obtain ⟨hnone, hnone'⟩ | ⟨f, f', hf, hf', hcorr⟩ := h.here i
    · rw [hnone, hnone']
      exact .none
    · rw [hf, hf']
      exact .some (hg f f' hcorr)
  · exact h i

/-! ### Looking up -/

/-- The nearest frame is found in the same place by tests that do not depend on the table. -/
theorem findUpTo (h : s.Corresponds t t' s') {q q' : Frame → Bool}
    (hq : ∀ f f', f.Corresponds t t' f' → q' f' = q f) (fuel : Nat) (frame : Nat) :
    s'.findUpTo q' fuel frame = s.findUpTo q fuel frame := by
  induction fuel generalizing frame with
  | zero => rfl
  | succ fuel ih =>
    rw [Scopes.findUpTo, Scopes.findUpTo]
    obtain ⟨hnone, hnone'⟩ | ⟨f, f', hf, hf', hcorr⟩ := h.here frame
    · rw [hnone, hnone']
    · rw [hf, hf']
      dsimp only
      rw [hq f f' hcorr, hcorr.tail]
      split
      · rfl
      · split
        · exact ih _
        · rfl

theorem find? (h : s.Corresponds t t' s') {q q' : Frame → Bool}
    (hq : ∀ f f', f.Corresponds t t' f' → q' f' = q f) (env : Env) : s'.find? env q' = s.find? env q :=
  h.findUpTo hq _ _

theorem receiver? (h : s.Corresponds t t' s') (env : Env) : s'.receiver? env = s.receiver? env := by
  have hfind : s'.find? env (fun f => f.receiver.isSome) = s.find? env fun f => f.receiver.isSome :=
    h.find? (fun f f' hf => by rw [hf.receiver]) env
  unfold Scopes.receiver?
  rw [hfind]
  cases s.find? env fun f => f.receiver.isSome with
  | none => rfl
  | some frame =>
    show (s'.frames[frame]?).bind Frame.receiver = (s.frames[frame]?).bind Frame.receiver
    obtain ⟨hnone, hnone'⟩ | ⟨f, f', hf, hf', hcorr⟩ := h.here frame
    · rw [hnone, hnone']
    · rw [hf, hf']
      exact hcorr.receiver

section

variable {name : Name} (hshare : Share own t t') (hname : own.Holds name)
include hshare hname

theorem owner? (h : s.Corresponds t t' s') (env : Env) : s'.owner? env name = s.owner? env name :=
  h.find? (fun _ _ hf => by rw [hf.shared hshare hname]) env

theorem slot? (h : s.Corresponds t t' s') (env : Env) : s'.slot? env name = s.slot? env name := by
  unfold Scopes.slot?
  rw [h.owner? hshare hname]
  cases s.owner? env name with
  | none => rfl
  | some frame =>
    show (s'.frames[frame]?).bind (Frame.slot? · name) = (s.frames[frame]?).bind (Frame.slot? · name)
    obtain ⟨hnone, hnone'⟩ | ⟨f, f', hf, hf', hcorr⟩ := h.here frame
    · rw [hnone, hnone']
    · rw [hf, hf']
      exact hcorr.shared hshare hname

theorem lookup (h : s.Corresponds t t' s') (env : Env) : s'.lookup env name = s.lookup env name := by
  rw [Scopes.lookup, Scopes.lookup, h.slot? hshare hname]

theorem declares (h : s.Corresponds t t' s') (env : Env) : s'.declares env name = s.declares env name := by
  unfold Scopes.declares Scopes.frame?
  obtain ⟨hnone, hnone'⟩ | ⟨f, f', hf, hf', hcorr⟩ := h.here env.frame
  · rw [hnone, hnone']
  · rw [hf, hf']
    exact congrArg Option.isSome (hcorr.shared hshare hname)

end

theorem copyBindings (hshare : Share own t t') (h : s.Corresponds t t' s') {names : List Name}
    (hnames : ∀ name ∈ names, own.Holds name) (env : Env) (id : UInt32) :
    (s'.copyBindings env id names).1 = (s.copyBindings env id names).1 ∧
      (s.copyBindings env id names).2.Corresponds t t' (s'.copyBindings env id names).2 := by
  refine ⟨congrArg (Env.mk id) h.size, h.push ?_⟩
  unfold Scopes.frame?
  obtain ⟨hnone, hnone'⟩ | ⟨f, f', hf, hf', hcorr⟩ := h.here env.frame
  · rw [hnone, hnone']
    exact (Frame.Corresponds.empty rfl).copy hshare hnames
  · rw [hf, hf']
    exact hcorr.copy hshare hnames

end Corresponds

/-! ### Writing -/

def Parallel {α : Type} (t t' : NameTable) (op op' : ScopeM α) : Prop :=
  ∀ s s' : Scopes, s.Corresponds t t' s' →
    match op s, op' s' with
    | .ok a s, .ok a' s' => a' = a ∧ s.Corresponds t t' s'
    | .error e s, .error e' s' => e' = e ∧ s.Corresponds t t' s'
    | _, _ => False

section

variable {name : Name} (hshare : Share own t t') (hname : own.Holds name)
include hshare hname

theorem parallel_addSlot (env : Env) (slot : Slot) :
    Parallel t t' (addSlot env name slot) (addSlot env name slot) := by
  intro s s' h
  unfold addSlot
  rw [h.declares hshare hname]
  cases s.declares env name with
  | true => exact ⟨rfl, h⟩
  | false => exact ⟨rfl, h.modify env.frame fun _ _ hf => hf.insert hshare hname slot⟩

theorem parallel_fill (env : Env) (v : Value) : Parallel t t' (fill env name v) (fill env name v) := by
  intro s s' h
  unfold fill
  rw [h.owner? hshare hname]
  cases s.owner? env name with
  | none => exact ⟨rfl, h⟩
  | some frame => exact ⟨rfl, h.modify frame fun _ _ hf => hf.modifySlot hshare hname _⟩

theorem parallel_assign (env : Env) (v : Value) : Parallel t t' (assign env name v) (assign env name v) := by
  intro s s' h
  unfold assign
  rw [h.owner? hshare hname, h.slot? hshare hname]
  cases s.owner? env name with
  | none => exact ⟨rfl, h⟩
  | some frame =>
    cases s.slot? env name with
    | none => exact ⟨rfl, h⟩
    | some slot =>
      dsimp only
      by_cases hvalue : slot.value.isNone = true
      · rw [if_pos hvalue, if_pos hvalue]
        exact ⟨rfl, h⟩
      rw [if_neg hvalue, if_neg hvalue]
      by_cases hfixed : slot.mutability = .fixed
      · rw [if_pos hfixed, if_pos hfixed]
        exact ⟨rfl, h⟩
      rw [if_neg hfixed, if_neg hfixed]
      exact ⟨rfl, h.modify frame fun _ _ hf => hf.modifySlot hshare hname _⟩

end

end Scopes

end ExplicitControl
