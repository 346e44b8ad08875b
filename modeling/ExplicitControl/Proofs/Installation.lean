import ExplicitControl.Proofs.Correspondence
import ExplicitControl.Proofs.Safety

/-!
# The order in which globals are installed

A machine is built by giving each global a place in the tree's name table and a variable in the first frame, in an
order that nobody has chosen; machines that have been built on the table before may have given the globals their
places already.  So the same program knows a global by different places in different runs.  None of this can be
observed: any two such machines go through corresponding states to the same end.
-/

namespace ExplicitControl

/-! ## 1. Tables that grow -/

namespace NameTable

inductive GrowsInto (t : NameTable) : NameTable → Prop where
  | refl : GrowsInto t t
  | intern {t' : NameTable} (s : String) : GrowsInto t t' → (s ∈ t'.strings ∨ t'.size < 4294967296) →
      GrowsInto t (t'.intern s).2

variable {t t' : NameTable}

theorem begins_intern (t : NameTable) (s : String) : t.strings.toList <+: (t.intern s).2.strings.toList := by
  by_cases hs : s ∈ t.strings
  · simp only [intern_present hs, List.prefix_refl]
  · rw [intern_fresh hs, Array.toList_push]
    exact List.prefix_append _ _

theorem size_le_of_begins (h : t.strings.toList <+: t'.strings.toList) : t.size ≤ t'.size :=
  h.length_le

/-- Interning leaves the text at the place that it answers. -/
theorem Proper.getElem?_intern (ht : t.Proper) {s : String} (hroom : s ∈ t.strings ∨ t.size < 4294967296) :
    (t.intern s).2.strings[(t.intern s).1.index.toNat]? = some s := by
  cases hf : t.find? s with
  | some n =>
    rw [NameTable.intern, hf]
    exact ht.find?_eq_some_iff.mp hf
  | none =>
    have hs := find?_eq_none_iff.mp hf
    have hplace : t.size.toUInt32.toNat = t.size := UInt32.toNat_ofNat_of_lt (hroom.resolve_left hs)
    rw [intern_fresh hs]
    show (t.strings.push s)[t.size.toUInt32.toNat]? = some s
    rw [hplace]
    exact Array.getElem?_push_size

theorem GrowsInto.proper (h : t.GrowsInto t') (ht : t.Proper) : t'.Proper := by
  induction h with
  | refl => exact ht
  | intern s _ hroom ih => exact ih.intern hroom

theorem GrowsInto.begins (h : t.GrowsInto t') : t.strings.toList <+: t'.strings.toList := by
  induction h with
  | refl => exact List.prefix_refl _
  | intern s _ _ ih => exact ih.trans (begins_intern _ s)

end NameTable

open NameTable

/-! ## 2. Installing -/

namespace Object

theorem mem_keys_setEntry {key : String} {value : Value} {entries : List (String × Value)} {k : String} :
    k ∈ (setEntry key value entries).map Prod.fst ↔ k = key ∨ k ∈ entries.map Prod.fst := by
  induction entries with
  | nil => simp [setEntry]
  | cons entry rest ih =>
    rw [setEntry]
    split
    next heq =>
      have heq : entry.1 = key := by simpa using heq
      simp [heq]
    next => simp [ih, or_left_comm]

theorem nodup_setEntry {key : String} {value : Value} {entries : List (String × Value)}
    (h : (entries.map Prod.fst).Nodup) : ((setEntry key value entries).map Prod.fst).Nodup := by
  induction entries with
  | nil => exact List.nodup_singleton key
  | cons entry rest ih =>
    obtain ⟨hnew, hrest⟩ := List.nodup_cons.mp h
    rw [setEntry]
    split
    · exact h
    next hne =>
      refine List.nodup_cons.mpr ⟨fun hmem => ?_, ih hrest⟩
      obtain heq | hmem := mem_keys_setEntry.mp hmem
      · exact hne (by simp [heq])
      · exact hnew hmem

/-- An object has each key once. -/
theorem nodup_ofPairs (pairs : List (String × Value)) : ((ofPairs pairs).entries.map Prod.fst).Nodup := by
  suffices h : ∀ o : Object, (o.entries.map Prod.fst).Nodup →
      ((pairs.foldl (fun o pair => o.set pair.1 pair.2) o).entries.map Prod.fst).Nodup from h empty List.nodup_nil
  induction pairs with
  | nil => exact fun _ h => h
  | cons pair rest ih => exact fun o h => ih _ (nodup_setEntry h)

end Object

/-- Entries under distinct keys are found whatever their order. -/
theorem lookup_eq_of_perm {entries entries' : List (String × Value)} (h : entries.Perm entries')
    (hkeys : (entries.map Prod.fst).Nodup) (key : String) : entries'.lookup key = entries.lookup key := by
  have hkeys' : (entries'.map Prod.fst).Nodup := (h.map Prod.fst).nodup_iff.mp hkeys
  cases hl : entries.lookup key with
  | some v =>
    obtain ⟨before, behind, heq, -⟩ := List.lookup_eq_some_iff.mp hl
    have hmem : (key, v) ∈ entries := heq ▸ List.mem_append_right _ List.mem_cons_self
    exact lookup_of_mem hkeys' (h.subset hmem)
  | none =>
    rw [List.lookup_eq_none_iff] at hl ⊢
    exact fun entry hentry => hl entry (h.symm.subset hentry)

namespace Machine

variable {env : Env}

theorem begins_install (env : Env) (entries : List (String × Value)) (t : NameTable) (scopes : Scopes) :
    t.strings.toList <+: (install env entries t scopes).1.strings.toList := by
  induction entries generalizing t scopes with
  | nil => exact List.prefix_refl _
  | cons entry rest ih => exact (begins_intern t entry.1).trans (ih _ _)

/-- A table in which all globals have found a place has had room for each of them. -/
theorem room_of_install {entry : String × Value} {rest : List (String × Value)} {t : NameTable} {scopes : Scopes}
    (hroom : (install env (entry :: rest) t scopes).1.size ≤ 4294967296) :
    entry.1 ∈ t.strings ∨ t.size < 4294967296 := by
  by_cases hs : entry.1 ∈ t.strings
  · exact .inl hs
  · have hle := size_le_of_begins (begins_install env rest (t.intern entry.1).2
      (scopes.insert env.frame (t.intern entry.1).1 ⟨some entry.2, .fixed⟩))
    rw [intern_fresh hs, size, Array.size_push] at hle
    rw [install, intern_fresh hs] at hroom
    exact .inr (Nat.lt_of_succ_le (Nat.le_trans hle hroom))

theorem size_install_le (entries : List (String × Value)) (t : NameTable) (scopes : Scopes) :
    (install env entries t scopes).1.size ≤ t.size + entries.length := by
  induction entries generalizing t scopes with
  | nil => exact Nat.le_refl _
  | cons entry rest ih =>
    have hone : (t.intern entry.1).2.size ≤ t.size + 1 := by
      by_cases hs : entry.1 ∈ t.strings
      · rw [intern_present hs]
        exact Nat.le_succ _
      · rw [intern_fresh hs, size, Array.size_push]
        exact Nat.le_refl _
    have hrest := ih (t.intern entry.1).2 (scopes.insert env.frame (t.intern entry.1).1 ⟨some entry.2, .fixed⟩)
    rw [List.length_cons]
    exact Nat.le_trans hrest (by omega)

theorem growsInto_install {entries : List (String × Value)} {t₀ t : NameTable} {scopes : Scopes} (h : t₀.GrowsInto t)
    (hroom : (install env entries t scopes).1.size ≤ 4294967296) : t₀.GrowsInto (install env entries t scopes).1 := by
  induction entries generalizing t scopes with
  | nil => exact h
  | cons entry rest ih => exact ih (h.intern entry.1 (room_of_install hroom)) hroom

/-- What has been installed is found under the place of its text. -/
theorem slot?_install {entries : List (String × Value)} (hkeys : (entries.map Prod.fst).Nodup) {t : NameTable}
    (ht : t.Proper) {f : Frame} (hroom : (install ⟨0, 0⟩ entries t ⟨#[f]⟩).1.size ≤ 4294967296) :
    ∃ f', (install ⟨0, 0⟩ entries t ⟨#[f]⟩).2 = ⟨#[f']⟩ ∧ f' = { f with head := f'.head } ∧
      ∀ n s, (install ⟨0, 0⟩ entries t ⟨#[f]⟩).1.strings[n.index.toNat]? = some s →
        f'.slot? n = ((entries.lookup s).map fun v => ⟨some v, .fixed⟩).or (f.slot? n) := by
  induction entries generalizing t f with
  | nil => exact ⟨f, rfl, rfl, fun _ _ _ => rfl⟩
  | cons entry rest ih =>
    obtain ⟨text, v⟩ := entry
    obtain ⟨hnew, hkeys⟩ := List.nodup_cons.mp hkeys
    have hfits := room_of_install hroom
    have hproper := ht.intern hfits
    obtain ⟨f', hscopes, hothers, hslot⟩ := ih hkeys hproper (f := f.insert (t.intern text).1 ⟨some v, .fixed⟩) hroom
    refine ⟨f', hscopes, hothers, fun n s hn => ?_⟩
    rw [hslot n s hn, Frame.slot?_insert]
    -- The new name is the only one with its text in the table that is made in the end.
    have hplace : (install ⟨0, 0⟩ ((text, v) :: rest) t ⟨#[f]⟩).1.strings[(t.intern text).1.index.toNat]? =
      some text := by
      have hholds : (t.intern text).2.Holds (t.intern text).1 :=
        (Array.getElem?_eq_some_iff.mp (ht.getElem?_intern hfits)).1
      obtain ⟨s', hs', hfinal⟩ := getElem?_of_begins (begins_install ⟨0, 0⟩ rest (t.intern text).2
        (Scopes.insert ⟨#[f]⟩ 0 (t.intern text).1 ⟨some v, .fixed⟩)) hholds
      cases (ht.getElem?_intern hfits).symm.trans hs'
      exact hfinal
    have hnodup := ((growsInto_install .refl hroom).proper ht).nodup
    by_cases hs : s = text
    · subst hs
      have hrest : rest.lookup s = none := by
        rw [List.lookup_eq_none_iff]
        intro entry hentry
        exact bne_iff_ne.mpr fun heq => hnew (List.mem_map.mpr ⟨entry, hentry, heq.symm⟩)
      rw [hrest, List.lookup_cons_self, if_pos (eq_of_text hnodup hn hplace)]
      rfl
    · have hne : n ≠ (t.intern text).1 := by
        rintro rfl
        cases hn.symm.trans hplace
        exact hs rfl
      rw [List.lookup_cons, beq_false_of_ne hs, if_neg hne]

/-- The frames of two installations of the same globals correspond. -/
theorem corresponds_install {t t' : NameTable} {entries entries' : List (String × Value)} (ht : t.Proper)
    (ht' : t'.Proper) (hkeys : (entries.map Prod.fst).Nodup) (hperm : entries.Perm entries') {f : Frame}
    (hf : f.head = []) (hroom : (install ⟨0, 0⟩ entries t ⟨#[f]⟩).1.size ≤ 4294967296)
    (hroom' : (install ⟨0, 0⟩ entries' t' ⟨#[f]⟩).1.size ≤ 4294967296) :
    (install ⟨0, 0⟩ entries t ⟨#[f]⟩).2.Corresponds (install ⟨0, 0⟩ entries t ⟨#[f]⟩).1
      (install ⟨0, 0⟩ entries' t' ⟨#[f]⟩).1 (install ⟨0, 0⟩ entries' t' ⟨#[f]⟩).2 := by
  have hkeys' : (entries'.map Prod.fst).Nodup := (hperm.map Prod.fst).nodup_iff.mp hkeys
  obtain ⟨g, hscopes, hothers, hslot⟩ := slot?_install hkeys ht hroom
  obtain ⟨g', hscopes', hothers', hslot'⟩ := slot?_install hkeys' ht' hroom'
  rw [hscopes, hscopes']
  have hempty : ∀ name, f.slot? name = none := fun name => by rw [Frame.slot?, hf]; rfl
  have hcorr : g.Corresponds (install ⟨0, 0⟩ entries t ⟨#[f]⟩).1 (install ⟨0, 0⟩ entries' t' ⟨#[f]⟩).1 g' := by
    refine ⟨by rw [hothers', hothers], ?_⟩
    rintro n n' ⟨s, hn, hn'⟩
    rw [hslot n s hn, hslot' n' s hn', hempty, hempty, lookup_eq_of_perm hperm hkeys]
  have hnone : Scopes.Corresponds (install ⟨0, 0⟩ entries t ⟨#[f]⟩).1 (install ⟨0, 0⟩ entries' t' ⟨#[f]⟩).1
    ⟨#[]⟩ ⟨#[]⟩ :=
    fun _ => .none
  exact hnone.push hcorr

end Machine

/-! ## 3. Machines -/

structure Machine.Corresponds {σ : Type} (p : Setting) (names : NameTable) (m m' : Machine σ) : Prop where
  setting : m.setting = p
  others : m' = { m with setting := p.over names, state := m'.state }
  state : m.state.Corresponds p names m'.state

/-- The same has become of both machines: they go on, pause at the same node, end with the same value, or fail
with the same error; and so far they have taken the same steps and printed the same. -/
def Outcome.Corresponds {σ : Type} (p : Setting) (names : NameTable) : Outcome σ → Outcome σ → Prop
  | .running m, .running m' => m.Corresponds p names m'
  | .finished v m, .finished v' m' => v' = v ∧ m.Corresponds p names m'
  | .paused id m, .paused id' m' => id' = id ∧ m.Corresponds p names m'
  | .failed e m, .failed e' m' => e' = e ∧ m.Corresponds p names m'
  | _, _ => False

def Outcome.Keeps {σ : Type} (I : State → Prop) : Outcome σ → Prop
  | .running m | .paused _ m => I m.state
  | _ => True

namespace Machine

variable {σ : Type} {p : Setting} {names : NameTable} {m m' : Machine σ}

theorem locateError_over {s s' : State} (h : s.Corresponds p names s') (e : EvalError) :
    locateError (p.over names) s' e = locateError p s e := by
  have hcurrent : s'.current = s.current := by rw [h.others]
  have hcalls : s'.calls = s.calls := by rw [h.others]
  have htree : (p.over names).tree = p.tree := rfl
  unfold locateError
  rw [hcurrent, hcalls, htree]

/-- Names of the tree are the only ones that values get. -/
theorem all_carryOut (hkeeps : p.Keeps (Value.NamedIn p.tree.names)) (hnames : p.tree.HoldsNames) {item : Item}
    (hitem : item.NamedIn p.tree.names) {s : State} (hs : s.All (Value.NamedIn p.tree.names)) (rule : PauseRule σ)
    (memory : σ) (resuming : Bool) :
    (carryOut item ⟨p, s, rule, memory, resuming⟩).Keeps fun s => s.All (Value.NamedIn p.tree.names) := by
  have hexec : Ensures (execute p item) s (fun _ s' => s'.All (Value.NamedIn p.tree.names)) fun _ _ => True :=
    all_execute (fun v => Value.namedIn_of_isInert) (fun _ _ h => absurd h List.not_mem_nil) hkeeps hs
      (by rintro v rfl; exact hitem) (by
        rintro id name params code rfl hkind identity n hn
        exact hnames id _ hkind n (List.mem_append_left _ hn))
  unfold Ensures at hexec
  simp only [carryOut]
  cases hx : execute p item s with
  | ok a t =>
    rw [hx] at hexec
    dsimp only
    split <;> exact hexec
  | error e t => trivial

/-- Machines that correspond differ in their tables and frames only. -/
theorem Corresponds.cases (h : m.Corresponds p names m') : ∃ s s' rule memory resuming,
    m = ⟨p, s, rule, memory, resuming⟩ ∧ m' = ⟨p.over names, s', rule, memory, resuming⟩ ∧
      s.Corresponds p names s' := by
  obtain ⟨q, s, rule, memory, resuming⟩ := m
  obtain rfl : q = p := h.setting
  exact ⟨s, m'.state, rule, memory, resuming, rfl, h.others, h.state⟩

section

variable (hshare : p.tree.names.Share p.names names) (hnames : p.tree.HoldsNames) {rule : PauseRule σ} {memory : σ}
  {resuming : Bool} {s s' : State}
include hshare hnames

theorem corresponds_carryOut (h : s.Corresponds p names s') (hs : s.All (Value.NamedIn p.tree.names)) {item : Item}
    (hitem : item.NamedIn p.tree.names) : (carryOut item ⟨p, s, rule, memory, resuming⟩).Corresponds p names
      (carryOut item ⟨p.over names, s', rule, memory, resuming⟩) := by
  have hexec := parallel_execute hshare hnames hitem h hs
  have htree : (p.over names).tree = p.tree := rfl
  have after : ∀ {t t'}, t.Corresponds p names t' →
      Machine.Corresponds p names ⟨p, t, rule, memory, false⟩ ⟨p.over names, t', rule, memory, false⟩ :=
    fun h => ⟨rfl, rfl, h⟩
  simp only [carryOut]
  cases hx : execute p item s with
  | ok a t =>
    rw [hx] at hexec
    cases hy : execute (p.over names) item s' with
    | ok a' t' =>
      rw [hy] at hexec
      dsimp only
      rw [htree]
      cases debuggerOf? p.tree item with
      | none => exact after hexec.2
      | some id => exact ⟨rfl, after hexec.2⟩
    | error e t' => rw [hy] at hexec; exact hexec.elim
  | error e t =>
    rw [hx] at hexec
    cases hy : execute (p.over names) item s' with
    | ok a' t' => rw [hy] at hexec; exact hexec.elim
    | error e' t' =>
      rw [hy] at hexec
      obtain ⟨rfl, ht⟩ := hexec
      exact ⟨locateError_over ht _, after ht⟩

/-- A step of both machines, after which the first one's values still go by names of the tree. -/
theorem corresponds_step (hkeeps : p.Keeps (Value.NamedIn p.tree.names)) (h : m.Corresponds p names m')
    (hs : m.state.All (Value.NamedIn p.tree.names)) :
    m.step.Corresponds p names m'.step ∧ m.step.Keeps fun s => s.All (Value.NamedIn p.tree.names) := by
  obtain ⟨s, s', rule, memory, resuming, rfl, rfl, hstate⟩ := h.cases
  have hs : s.All (Value.NamedIn p.tree.names) := hs
  have hresult : s'.result = s.result := by rw [State.result, State.result, hstate.stash]
  have hagenda := hstate.agenda_eq
  cases ha : s.agenda with
  | nil =>
    simp only [step, hagenda, ha]
    exact ⟨⟨hresult, rfl, rfl, hstate⟩, trivial⟩
  | cons item rest =>
    obtain ⟨hitem, hrest⟩ := List.forall_mem_cons.mp (ha ▸ hstate.agenda)
    have hdropped : State.Corresponds p names { s with agenda := rest } { s' with agenda := rest } :=
      hstate.map (f := fun s => { s with agenda := rest }) (fun _ _ => rfl) hrest hstate.snapshots
    have hrestAll : State.All (Value.NamedIn p.tree.names) { s with agenda := rest } := { hs with }
    have carried : ∀ memory resuming, (carryOut item ⟨p, { s with agenda := rest }, rule, memory, resuming⟩).Corresponds
          p names (carryOut item ⟨p.over names, { s' with agenda := rest }, rule, memory, resuming⟩) ∧
        (carryOut item ⟨p, { s with agenda := rest }, rule, memory, resuming⟩).Keeps
          fun s => s.All (Value.NamedIn p.tree.names) := fun memory resuming =>
      ⟨corresponds_carryOut hshare hnames hdropped hrestAll hitem,
        all_carryOut hkeeps hnames hitem hrestAll rule memory resuming⟩
    have htree : (p.over names).tree = p.tree := rfl
    simp only [step, hagenda, ha]
    -- Both machines ask the same rule, in front of nodes only and not when they resume.
    cases item with
    | instr i =>
      simp only [askRule, dropItem, hagenda, ha, List.tail_cons]
      exact carried memory resuming
    | node id =>
      cases resuming with
      | true =>
        simp only [askRule, dropItem, hagenda, ha, List.tail_cons, if_true]
        exact carried memory true
      | false =>
        simp only [askRule, htree, Bool.false_eq_true, if_false]
        rcases rule memory p.tree id with ⟨_ | _, memory'⟩
        · simp only [dropItem, hagenda, ha, List.tail_cons]
          exact carried memory' false
        · exact ⟨⟨rfl, rfl, rfl, hstate⟩, hs⟩

theorem corresponds_run (hkeeps : p.Keeps (Value.NamedIn p.tree.names)) (h : m.Corresponds p names m')
    (hs : m.state.All (Value.NamedIn p.tree.names)) (n : Nat) : (m.run n).Corresponds p names (m'.run n) := by
  induction n generalizing m m' with
  | zero => exact h
  | succ n ih =>
    obtain ⟨hstep, hall⟩ := corresponds_step hshare hnames hkeeps h hs
    rw [run, run]
    cases hm : m.step <;> cases hm' : m'.step <;> rw [hm, hm'] at hstep
    case running.running => rw [hm] at hall; exact ih hstep hall
    all_goals first | exact hstep | exact hstep.elim

theorem corresponds_runThrough (hkeeps : p.Keeps (Value.NamedIn p.tree.names)) (h : m.Corresponds p names m')
    (hs : m.state.All (Value.NamedIn p.tree.names)) (n : Nat) :
    (m.runThrough n).Corresponds p names (m'.runThrough n) := by
  induction n generalizing m m' with
  | zero => exact h
  | succ n ih =>
    obtain ⟨hstep, hall⟩ := corresponds_step hshare hnames hkeeps h hs
    rw [runThrough, runThrough]
    cases hm : m.step <;> cases hm' : m'.step <;> rw [hm, hm'] at hstep
    case running.running => rw [hm] at hall; exact ih hstep hall
    case paused.paused => rw [hm] at hall; exact ih hstep.2 hall
    all_goals first | exact hstep | exact hstep.elim

end

/-! ## 4. Building -/

/-- The machine that is built if the tree's table has become `names`, and the globals are installed as listed. -/
def buildWith (names : NameTable) (entries : List (String × Value)) (t : Tree) (config : Config)
    (hosts : List EmbeddedFunction) (output : Output) (clock : Nat → Nat) (rule : PauseRule σ) (memory : σ) :
    Machine σ :=
  let m := build t config hosts output clock rule memory
  let (env, scopes) := Scopes.empty.root 0 "global"
  let (names, scopes) := install env entries names scopes
  { m with setting := m.setting.over names, state := { m.state with scopes } }

variable (t : Tree) (config : Config) (hosts : List EmbeddedFunction) (output : Output) (clock : Nat → Nat)
  (rule : PauseRule σ) (memory : σ)

theorem build_eq_buildWith : build t config hosts output clock rule memory =
    buildWith t.names (globals hosts).entries t config hosts output clock rule memory := rfl

variable {table table' : NameTable} {entries entries' : List (String × Value)}

theorem keeps_buildWith {P : Value → Prop} (hhosts : ∀ f ∈ hosts, f.Keeps P) :
    (buildWith table entries t config hosts output clock rule memory).setting.Keeps P :=
  ⟨fun f hf => hhosts f (List.mem_toArray.mp hf), fun _ => isInert_of_mem_identify⟩

theorem all_buildWith {P : Value → Prop} (hinert : ∀ v, v.isInert = true → P v)
    (hentries : ∀ entry ∈ entries, entry.2.isInert = true) :
    (buildWith table entries t config hosts output clock rule memory).state.All P := by
  have hstart : (Scopes.empty.root 0 "global").2.All P :=
    Scopes.All.alloc (fun _ h => by cases Array.not_mem_empty _ h) _ (Frame.all_ofName _ _)
  exact ⟨List.forall_mem_nil _, install_all _ (fun entry h => hinert _ (hentries entry h)) _ hstart,
    fun _ h => absurd h (Array.not_mem_empty _), fun _ h => absurd h (Array.not_mem_empty _)⟩

theorem growsInto_buildWith {own : NameTable} (h : own.GrowsInto table)
    (hroom : (buildWith table entries t config hosts output clock rule memory).setting.names.size ≤ 4294967296) :
    own.GrowsInto (buildWith table entries t config hosts output clock rule memory).setting.names :=
  growsInto_install h hroom

/-- There is room for the names if there is a place for each of the globals. -/
theorem size_buildWith_le : (buildWith table entries t config hosts output clock rule memory).setting.names.size ≤
    table.size + entries.length :=
  size_install_le entries table _

/-- **The order of installation cannot be observed.**  Let a tree's names lie in its own table, and let two
machines be built for it with the same functions of the host, on tables that have grown from its own, by
installing the same globals in any two orders.  After any number of steps, with pauses or through them, both
machines are in corresponding states, and the same has become of them. -/
theorem installation_unobservable (hgrown : t.names.Grown) (hnames : t.HoldsNames)
    (hhosts : ∀ f ∈ hosts, f.Keeps (Value.NamedIn t.names)) (htable : t.names.GrowsInto table)
    (htable' : t.names.GrowsInto table') (hentries : entries.Perm (globals hosts).entries)
    (hentries' : entries'.Perm (globals hosts).entries)
    (hroom : (buildWith table entries t config hosts output clock rule memory).setting.names.size ≤ 4294967296)
    (hroom' : (buildWith table' entries' t config hosts output clock rule memory).setting.names.size ≤ 4294967296)
    (n : Nat) :
    let m := buildWith table entries t config hosts output clock rule memory
    let m' := buildWith table' entries' t config hosts output clock rule memory
    (m.run n).Corresponds m.setting m'.setting.names (m'.run n) ∧
      (m.runThrough n).Corresponds m.setting m'.setting.names (m'.runThrough n) := by
  intro m m'
  have hproper := hgrown.proper
  have hkeys : (entries.map Prod.fst).Nodup :=
    (hentries.map Prod.fst).nodup_iff.mpr (Object.nodup_ofPairs _)
  have hgrows : t.names.GrowsInto m.setting.names := growsInto_buildWith _ _ _ _ _ _ _ htable hroom
  have hgrows' : t.names.GrowsInto m'.setting.names := growsInto_buildWith _ _ _ _ _ _ _ htable' hroom'
  have hshare : m.setting.tree.names.Share m.setting.names m'.setting.names :=
    ⟨hgrows.begins, hgrows'.begins, (hgrows.proper hproper).nodup, (hgrows'.proper hproper).nodup⟩
  have hscopes : m.state.scopes.Corresponds m.setting.names m'.setting.names m'.state.scopes :=
    corresponds_install (htable.proper hproper) (htable'.proper hproper) hkeys (hentries.trans hentries'.symm) rfl
      hroom hroom'
  have hstart : m.Corresponds m.setting m'.setting.names m' :=
    ⟨rfl, rfl, rfl, hscopes, List.forall_mem_singleton.mpr (namedIn_node _),
      fun _ h => absurd h (Array.not_mem_empty _)⟩
  have hkeeps : m.setting.Keeps (Value.NamedIn t.names) :=
    keeps_buildWith t config hosts output clock rule memory hhosts
  have hall : m.state.All (Value.NamedIn t.names) :=
    all_buildWith t config hosts output clock rule memory (fun _ => Value.namedIn_of_isInert) fun entry h =>
      globals_inert hosts entry (hentries.subset h)
  exact ⟨corresponds_run hshare hnames hkeeps hstart hall n, corresponds_runThrough hshare hnames hkeeps hstart hall n⟩

end Machine

/-- The program `display("hi");`. -/
def Tree.displayHi : Tree where
  names := ⟨#["", "display"]⟩
  nodes := #[⟨.literal (.string "hi"), Span.synthetic 0⟩, ⟨.identifier ⟨1⟩, Span.synthetic 1⟩,
    ⟨.call ⟨1⟩ [⟨0⟩], Span.synthetic 2⟩, ⟨.expressionStatement ⟨2⟩, Span.synthetic 3⟩,
    ⟨.program [⟨3⟩], Span.synthetic 4⟩]
  root := ⟨4⟩
  accepted := by decide

namespace Machine

/-- The machine of a program that says `hi`, on a table, with the globals as listed. -/
def displayHi (names : NameTable) (entries : List (String × Value)) : Machine Unit :=
  buildWith names entries Tree.displayHi .standard [] default (fun _ => 0) .never ()

/-- Once on the tree's own table, and once where the first machine has left it, in the opposite order. -/
theorem installation_unobservable_displayHi :
    let entries := (globals []).entries
    let first := displayHi Tree.displayHi.names entries
    let second := displayHi first.setting.names entries.reverse
    Tree.displayHi.names.Grown ∧ Tree.displayHi.HoldsNames ∧ Tree.displayHi.names.GrowsInto first.setting.names ∧
      entries.reverse.Perm entries ∧ first.setting.names.size ≤ 4294967296 ∧ second.setting.names.size ≤ 4294967296 ∧
      ∀ n, (first.run n).Corresponds first.setting second.setting.names (second.run n) ∧
        (first.runThrough n).Corresponds first.setting second.setting.names (second.runThrough n) := by
  intro entries first second
  have hgrown : Tree.displayHi.names.Grown := by
    have h := NameTable.Grown.initial.intern "display" (.inr (by decide))
    rwa [NameTable.intern_fresh (by simp [NameTable.initial])] at h
  have hnames : Tree.displayHi.HoldsNames := Tree.holdsNames_of_nodes (by decide)
  have hcount : entries.length = 17 := by decide +kernel
  have hfirst : first.setting.names.size ≤ 2 + 17 := hcount ▸ size_buildWith_le ..
  have hsecond : second.setting.names.size ≤ first.setting.names.size + 17 :=
    hcount ▸ entries.length_reverse ▸ size_buildWith_le ..
  have hroom : first.setting.names.size ≤ 4294967296 := by omega
  have hroom' : second.setting.names.size ≤ 4294967296 := by omega
  have hgrows : Tree.displayHi.names.GrowsInto first.setting.names :=
    growsInto_buildWith _ _ _ _ _ _ _ .refl hroom
  exact ⟨hgrown, hnames, hgrows, entries.reverse_perm, hroom, hroom', fun n =>
    installation_unobservable Tree.displayHi .standard [] default (fun _ => 0) .never () hgrown hnames
      (fun _ h => absurd h List.not_mem_nil) .refl hgrows (.refl _) entries.reverse_perm hroom hroom' n⟩

end Machine

end ExplicitControl
