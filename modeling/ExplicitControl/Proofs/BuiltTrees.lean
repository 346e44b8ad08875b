import ExplicitControl.Proofs.Acyclic
import ExplicitControl.Proofs.Building

/-!
# Trees that are built

A finite sequence of calls, each given ids that calls before it have answered, leaves nodes and names that bear all the
answers out, whatever is called in between.  So in the end every id answers to what its call has described, and the
nodes are accepted as a tree, in which none contains itself.
-/

namespace ExplicitControl

/-! ## 1. Sequences of calls -/

inductive BuildCall where
  | name (s : String)
  | setSpan (id : NodeId) (span : Span)
  | node (c : NodeCall)

inductive BuildReply where
  | name (n : Name)
  | node (id : NodeId)
  | done
deriving DecidableEq

namespace BuildCall

def perform : BuildCall → BuildM BuildReply
  | name s => return .name (← TreeBuilder.name s)
  | setSpan id span => do
    TreeBuilder.setSpan id span
    return .done
  | node c => return .node (← c.perform)

def ids : BuildCall → List NodeId
  | name _ => []
  | setSpan id _ => [id]
  | node c => c.ids

end BuildCall

abbrev BuildLog := List (BuildCall × BuildReply)

namespace BuildLog

def Answered (log : BuildLog) (id : NodeId) : Prop :=
  ∃ entry ∈ log, entry.2 = .node id

instance (log : BuildLog) (id : NodeId) : Decidable (log.Answered id) :=
  inferInstanceAs (Decidable (∃ entry ∈ log, entry.2 = .node id))

def declared? : BuildCall × BuildReply → Option NodeId
  | (.node c, _) => c.declared?
  | _ => none

def declared (log : BuildLog) : List NodeId :=
  log.filterMap declared?

/-- The span that the call replaces that of the node by. -/
def replaced? (id : NodeId) : BuildCall × BuildReply → Option Span
  | (.setSpan id' span, _) => if id' = id then some span else none
  | _ => none

def given? (id : NodeId) : BuildCall × BuildReply → Option Span
  | (.node c, .node id') => if id' = id then c.given? else none
  | _ => none

/-- The span of a node: the last that it has been replaced by, else the one that it was given, else the synthetic
one of its place. -/
def spanOf (log : BuildLog) (id : NodeId) : Span :=
  (log.filterMap (replaced? id)).getLast?.getD ((log.findSome? (given? id)).getD (Span.synthetic id.index))

variable {log : BuildLog} {id : NodeId} {entry : BuildCall × BuildReply}

theorem mem_declared_append {function : NodeId} (h : function ∈ log.declared) :
    function ∈ declared (log ++ [entry]) := by
  rw [declared, List.filterMap_append]
  exact List.mem_append_left _ h

theorem mem_declared_last {c : NodeCall} {reply : BuildReply} {function : NodeId} (h : c.declared? = some function) :
    function ∈ declared (log ++ [(.node c, reply)]) :=
  List.mem_filterMap.mpr ⟨(.node c, reply), List.mem_append_right _ (List.mem_singleton_self _), h⟩

theorem spanOf_append (hreplaced : replaced? id entry = none) (hgiven : given? id entry = none) :
    spanOf (log ++ [entry]) id = log.spanOf id := by
  simp [spanOf, hreplaced, hgiven]

theorem spanOf_append_setSpan {span : Span} {reply : BuildReply} :
    spanOf (log ++ [(.setSpan id span, reply)]) id = span := by
  simp [spanOf, replaced?]

/-- The span of a node that no earlier call is about. -/
theorem spanOf_append_fresh (hlog : ∀ entry ∈ log, replaced? id entry = none ∧ given? id entry = none)
    (hreplaced : replaced? id entry = none) :
    spanOf (log ++ [entry]) id = (given? id entry).getD (Span.synthetic id.index) := by
  have hnone : log.filterMap (replaced? id) = [] := List.filterMap_eq_nil_iff.mpr fun entry h => (hlog entry h).1
  have hgiven : log.findSome? (given? id) = none := List.findSome?_eq_none_iff.mpr fun entry h => (hlog entry h).2
  simp [spanOf, hnone, hgiven, hreplaced]

end BuildLog

/-- A finite sequence of calls, with the builder that they leave: every id that a call is given has been answered
before. -/
inductive Builds : BuildLog → TreeBuilder → Prop where
  | start : Builds [] TreeBuilder.initial
  | call {log : BuildLog} {b : TreeBuilder} (c : BuildCall) (h : Builds log b) (hids : ∀ id ∈ c.ids, log.Answered id) :
      Builds (log ++ [(c, (c.perform.run b).1)]) (c.perform.run b).2

/-- The builder that calls leave, if the ids that they are given and their answers are as they must be. -/
def BuildLog.replay (done : BuildLog) (b : TreeBuilder) : BuildLog → Option TreeBuilder
  | [] => some b
  | (c, reply) :: rest =>
    if (∀ id ∈ c.ids, done.Answered id) ∧ (c.perform.run b).1 = reply then
      replay (done ++ [(c, reply)]) (c.perform.run b).2 rest
    else none

theorem builds_of_replay {done rest : BuildLog} {b b' : TreeBuilder} (h : Builds done b)
    (hrest : done.replay b rest = some b') : Builds (done ++ rest) b' := by
  induction rest generalizing done b with
  | nil =>
    cases hrest
    rwa [List.append_nil]
  | cons entry rest ih =>
    obtain ⟨c, reply⟩ := entry
    rw [BuildLog.replay] at hrest
    split at hrest
    next hcall =>
      obtain ⟨hids, rfl⟩ := hcall
      rw [List.append_cons]
      exact ih (h.call c hids) hrest
    next => cases hrest

/-! ## 2. What calls leave behind -/

namespace TreeBuilder

variable {b b' : TreeBuilder} {id : NodeId} {entry : BuildCall × BuildReply}

structure Grows (b b' : TreeBuilder) : Prop where
  names : ∃ texts, b'.names = b.names.withTexts texts
  keeps : Keeps b.nodes b'.nodes

/-- The builder bears out the answer of a call: a text has got a name, and the nodes that were described are there. -/
def Answers (b : TreeBuilder) : BuildCall × BuildReply → Prop
  | (.name s, reply) => ∃ n, reply = .name n ∧ b.names.find? s = some n
  | (.setSpan id _, reply) => reply = .done ∧ id.index.toNat < b.nodes.size
  | (.node c, reply) => (∃ id, reply = .node id ∧ ∀ ν, b.names.Named ν → c.Describes ν b.nodes id) ∧
      ∀ s ∈ c.texts, ∃ n, b.names.find? s = some n

theorem Grows.find? {s : String} {n : Name} (h : Grows b b') (hs : b.names.find? s = some n) :
    b'.names.find? s = some n := by
  obtain ⟨texts, hnames⟩ := h.names
  rw [hnames]
  exact NameTable.find?_withTexts_of_find? hs

theorem Grows.named {ν : String → Name} (h : Grows b b') (hν : b'.names.Named ν) : b.names.Named ν :=
  fun s n hs => hν s n (h.find? hs)

theorem Answers.mono (h : b.Answers entry) (hgrows : Grows b b') : b'.Answers entry := by
  obtain ⟨c, reply⟩ := entry
  cases c with
  | name s =>
    obtain ⟨n, hreply, hs⟩ := h
    exact ⟨n, hreply, hgrows.find? hs⟩
  | setSpan id span => exact ⟨h.1, hgrows.keeps.lt_size h.2⟩
  | node c =>
    obtain ⟨⟨id, hreply, hdescribes⟩, htexts⟩ := h
    refine ⟨⟨id, hreply, fun ν hν => (hdescribes ν (hgrows.named hν)).mono hgrows.keeps⟩, fun s hs => ?_⟩
    obtain ⟨n, hn⟩ := htexts s hs
    exact ⟨n, hgrows.find? hn⟩

/-- An answered id is that of a node. -/
theorem Answers.lt_size {c : BuildCall} (h : b.Answers (c, .node id)) : id.index.toNat < b.nodes.size := by
  cases c with
  | name s =>
    obtain ⟨n, hreply, -⟩ := h
    cases hreply
  | setSpan id' span => cases h.1
  | node c =>
    obtain ⟨⟨id', hreply, hdescribes⟩, -⟩ := h
    cases hreply
    obtain ⟨inner, -, houter⟩ := hdescribes _ b.names.named_place
    exact lt_size_iff.mpr ⟨_, houter⟩

/-- No call has said anything about the span of a node that is still to be added. -/
theorem Answers.silent (h : b.Answers entry) (hid : b.nodes.size ≤ id.index.toNat) :
    BuildLog.replaced? id entry = none ∧ BuildLog.given? id entry = none := by
  have hanswers := h
  obtain ⟨c, reply⟩ := entry
  cases c with
  | name s => exact ⟨rfl, rfl⟩
  | setSpan id' span =>
    refine ⟨if_neg ?_, rfl⟩
    rintro rfl
    exact Nat.not_lt_of_le hid h.2
  | node c =>
    obtain ⟨⟨id', rfl, -⟩, -⟩ := h
    refine ⟨rfl, if_neg ?_⟩
    rintro rfl
    exact Nat.not_lt_of_le hid hanswers.lt_size

end TreeBuilder

open TreeBuilder

structure Accounts (log : BuildLog) (b : TreeBuilder) : Prop where
  sound : Sound b.nodes (· ∈ log.declared)
  answers : ∀ entry ∈ log, b.Answers entry
  spans : ∀ id node, b.nodes[id.index.toNat]? = some node → node.span = log.spanOf id
  proper : b.names.size ≤ 4294967296 → b.names.Proper

namespace Accounts

variable {log : BuildLog} {b b' : TreeBuilder} {id : NodeId} {entry : BuildCall × BuildReply}

theorem start : Accounts [] TreeBuilder.initial where
  sound := ⟨fun id kind h => by simp [kindAt, TreeBuilder.initial] at h, fun id name function h => by
    simp [kindAt, TreeBuilder.initial] at h⟩
  answers := fun _ h => by cases h
  spans := fun id node h => by simp [TreeBuilder.initial] at h
  proper := fun _ => NameTable.proper_initial

theorem lt_size (h : Accounts log b) (hid : log.Answered id) : id.index.toNat < b.nodes.size := by
  obtain ⟨⟨c, reply⟩, hentry, rfl⟩ := hid
  exact (h.answers _ hentry).lt_size

theorem append (h : Accounts log b) (hgrows : Grows b b') (hentry : b'.Answers entry)
    (hsound : Sound b'.nodes (· ∈ BuildLog.declared (log ++ [entry])))
    (hspans : ∀ id node, b'.nodes[id.index.toNat]? = some node → node.span = BuildLog.spanOf (log ++ [entry]) id) :
    Accounts (log ++ [entry]) b' where
  sound := hsound
  answers := List.forall_mem_append.mpr
    ⟨fun earlier hearlier => (h.answers earlier hearlier).mono hgrows, List.forall_mem_singleton.mpr hentry⟩
  spans := hspans
  proper := fun hsize => by
    obtain ⟨texts, hnames⟩ := hgrows.names
    rw [hnames] at hsize ⊢
    exact (h.proper (Nat.le_trans (NameTable.size_le_size_withTexts _ texts) hsize)).withTexts hsize

theorem name (h : Accounts log b) (s : String) :
    Accounts (log ++ [(.name s, .name (b.names.intern s).1)]) (b.naming [s]) := by
  refine h.append ⟨⟨[s], rfl⟩, fun _ _ hkind => hkind⟩ ⟨_, rfl, NameTable.find?_intern_self b.names s⟩
    (h.sound.mono fun _ => BuildLog.mem_declared_append) fun id node hnode => ?_
  rw [BuildLog.spanOf_append rfl rfl]
  exact h.spans id node hnode

theorem setSpan (h : Accounts log b) (span : Span) (hid : log.Answered id) :
    Accounts (log ++ [(.setSpan id span, .done)]) ((TreeBuilder.setSpan id span).run b).2 := by
  have hkeeps := keeps_setSpan (b := b) id span
  refine h.append ⟨⟨[], rfl⟩, hkeeps⟩ ⟨rfl, hkeeps.lt_size (h.lt_size hid)⟩
    ((h.sound.setSpan id span).mono fun _ => BuildLog.mem_declared_append) fun id' node hnode => ?_
  rw [getElem?_setSpan] at hnode
  split at hnode
  next heq =>
    obtain rfl := NodeId.eq_of_toNat heq
    obtain ⟨node', -, rfl⟩ := Option.map_eq_some_iff.mp hnode
    exact BuildLog.spanOf_append_setSpan.symm
  next hne =>
    have hother : BuildLog.replaced? id' (.setSpan id span, .done) = none := if_neg fun heq => hne (by rw [heq])
    rw [BuildLog.spanOf_append hother rfl]
    exact h.spans id' node hnode

/-- The spans after a call that adds nodes: new nodes have the span they are given or the synthetic one of their
place. -/
theorem spans_after {c : NodeCall} {ν : String → Name} (h : Accounts log b)
    (hsize : (c.begun ν b).nodes.size < 4294967296)
    {node : Node} (hnode : (c.after ν b).nodes[id.index.toNat]? = some node) :
    node.span = BuildLog.spanOf (log ++ [(.node c, .node (c.begun ν b).nextId)]) id := by
  have hplace := index_nextId hsize
  have hsilent : b.nodes.size ≤ id.index.toNat →
      ∀ entry ∈ log, BuildLog.replaced? id entry = none ∧ BuildLog.given? id entry = none :=
    fun hid entry hentry => (h.answers entry hentry).silent hid
  rw [NodeCall.after, getElem?_add] at hnode
  split at hnode
  next heq =>
    obtain rfl : (c.begun ν b).nextId = id := NodeId.eq_of_toNat (hplace.trans heq.symm)
    have hnew : b.nodes.size ≤ (c.begun ν b).nextId.index.toNat := by
      rw [heq]
      exact NodeCall.size_le_size_begun
    rw [← Option.some.inj hnode, BuildLog.spanOf_append_fresh (hsilent hnew) rfl, BuildLog.given?, if_pos rfl]
  next hne =>
    have hother : BuildLog.given? id (.node c, .node (c.begun ν b).nextId) = none :=
      if_neg fun heq => hne (by rw [← heq, hplace])
    obtain ⟨-, heq⟩ | ⟨kind, -, heq⟩ := NodeCall.begun_cases c ν b
    · rw [heq] at hnode
      rw [BuildLog.spanOf_append rfl hother]
      exact h.spans id node hnode
    · rw [heq, getElem?_add] at hnode
      split at hnode
      next hinner =>
        have hinner : id.index.toNat = b.nodes.size := hinner
        have hb := Nat.lt_of_le_of_lt NodeCall.size_le_size_begun hsize
        obtain rfl : b.nextId = id := NodeId.eq_of_toNat ((index_nextId hb).trans hinner.symm)
        rw [← Option.some.inj hnode, BuildLog.spanOf_append_fresh (hsilent (Nat.le_of_eq hinner.symm)) rfl, hother]
        rfl
      next =>
        rw [BuildLog.spanOf_append rfl hother]
        exact h.spans id node hnode

theorem node {c : NodeCall} (h : Accounts log b) (hids : ∀ id ∈ c.ids, log.Answered id)
    (hsize : (c.perform.run b).2.nodes.size ≤ 4294967296) :
    Accounts (log ++ [(.node c, .node (c.perform.run b).1)]) (c.perform.run b).2 := by
  -- All namings of the names that the call leaves tell the same about it.
  have hrun : ∀ ν, (b.names.withTexts c.texts).Named ν → c.perform.run b = ((c.begun ν b).nextId, c.after ν b) :=
    fun ν => NodeCall.run_perform c b
  have hplace := NameTable.named_place (b.names.withTexts c.texts)
  generalize (b.names.withTexts c.texts).place = ν at hplace
  have hnames : (c.perform.run b).2.names = b.names.withTexts c.texts := by
    rw [hrun ν hplace]
    exact NodeCall.names_begun
  have hbegun : ∀ ν', (b.names.withTexts c.texts).Named ν' → (c.begun ν' b).nodes.size < 4294967296 := by
    intro ν' hν'
    rw [hrun ν' hν'] at hsize
    exact Nat.lt_of_lt_of_le (Nat.lt_of_lt_of_eq (Nat.lt_succ_self _) NodeCall.size_after.symm) hsize
  have hb : b.nodes.size < 4294967296 := Nat.lt_of_le_of_lt NodeCall.size_le_size_begun (hbegun ν hplace)
  refine h.append ⟨⟨c.texts, hnames⟩, ?_⟩ ⟨⟨_, rfl, ?_⟩, fun s hs => ?_⟩ ?_ fun id node hnode => ?_
  · rw [hrun ν hplace]
    exact NodeCall.keeps_after
  · intro ν' hν'
    rw [hnames] at hν'
    rw [hrun ν' hν']
    exact NodeCall.describes_after (hbegun ν' hν')
  · rw [hnames]
    exact NameTable.exists_find?_withTexts hs
  · rw [hrun ν hplace]
    refine NodeCall.sound_after (h.sound.mono fun _ => BuildLog.mem_declared_append) hb
      (fun id hid => h.lt_size (hids id hid)) ?_
    exact fun function => BuildLog.mem_declared_last
  · rw [hrun ν hplace] at hnode ⊢
    exact h.spans_after (hbegun ν hplace) hnode

end Accounts

theorem BuildCall.size_le_size_perform (c : BuildCall) (b : TreeBuilder) :
    b.nodes.size ≤ (c.perform.run b).2.nodes.size := by
  cases c with
  | name s => exact Nat.le_refl _
  | setSpan id span => exact Nat.le_of_eq Array.size_modify.symm
  | node c =>
    show b.nodes.size ≤ (c.perform.run b).2.nodes.size
    rw [NodeCall.run_perform c b (NameTable.named_place _)]
    exact Nat.le_trans NodeCall.size_le_size_begun
      (Nat.le_trans (Nat.le_succ _) (Nat.le_of_eq NodeCall.size_after.symm))

theorem Builds.accounts {log : BuildLog} {b : TreeBuilder} (h : Builds log b) (hsize : b.nodes.size ≤ 4294967296) :
    Accounts log b := by
  induction h with
  | start => exact .start
  | call c _ hids ih =>
    have hbefore := ih (Nat.le_trans (c.size_le_size_perform _) hsize)
    cases c with
    | name s => exact hbefore.name s
    | setSpan id span => exact hbefore.setSpan span (hids id (List.mem_singleton_self id))
    | node c => exact hbefore.node hids hsize

/-! ## 3. The tree in the end -/

namespace TreeBuilder

variable {nodes : Array Node} {b : TreeBuilder} {given : NodeId → Prop} {body : List NodeId} {t : Tree}

def finished (b : TreeBuilder) (body : List NodeId) : TreeBuilder :=
  b.add (.program body) (Span.synthetic b.nextId.index)

theorem program_eq_ok_iff : b.program body = .ok t ↔
    t.names = b.names ∧ t.nodes = (b.finished body).nodes ∧ t.root = b.nextId :=
  Tree.ofNodes_eq_ok_iff

/-- Every place of a list that is not too long has an id. -/
theorem exists_kindAt {i : Nat} (hsize : nodes.size ≤ 4294967296) {node : Node} (h : nodes[i]? = some node) :
    ∃ id : NodeId, id.index.toNat = i ∧ kindAt nodes id = some node.kind := by
  have hlt : i < 4294967296 := Nat.lt_of_lt_of_le (Array.getElem?_eq_some_iff.mp h).1 hsize
  have hplace : (UInt32.ofNat i).toNat = i := UInt32.toNat_ofNat_of_lt hlt
  exact ⟨⟨UInt32.ofNat i⟩, hplace, Option.map_eq_some_iff.mpr ⟨node, hplace.symm ▸ h, rfl⟩⟩

/-- Nothing is wrong with sound nodes if what is told apart is not. -/
theorem Sound.fits (h : Sound nodes given) (hsize : nodes.size ≤ 4294967296)
    (hgiven : ∀ function, given function → Tree.IsFunction nodes function) {node : Node}
    (hnode : node ∈ nodes.toList) : Tree.Fits nodes node.kind := by
  obtain ⟨i, hi⟩ := List.mem_iff_getElem?.mp hnode
  obtain ⟨id, -, hkind⟩ := exists_kindAt hsize (by rwa [Array.getElem?_toList] at hi)
  constructor
  · intro child hchild
    exact Nat.lt_trans (h.rising id _ hkind child hchild.mem_children) (lt_size_iff.mpr ⟨_, hkind⟩)
  · intro name function hdeclared
    rw [hdeclared] at hkind
    exact (h.declares id name function hkind).elim (fun hfunction => hfunction) (hgiven function)

theorem Sound.bottomUp (h : Sound t.nodes given) (hsize : t.size ≤ 4294967296) : t.BottomUp := by
  intro i hi child hchild
  obtain ⟨id, hplace, hkind⟩ := exists_kindAt hsize (Array.getElem?_eq_getElem hi)
  exact hplace ▸ h.rising id _ hkind child hchild

theorem Sound.finished (h : Sound b.nodes given) (hbody : ∀ id ∈ body, id.index.toNat < b.nodes.size) :
    Sound (b.finished body).nodes given :=
  h.add hbody fun _ _ hkind => nomatch hkind

/-- Sound nodes are accepted behind a program. -/
theorem exists_program (h : Sound b.nodes given) (hbody : ∀ id ∈ body, id.index.toNat < b.nodes.size)
    (hsize : b.nodes.size < 4294967296)
    (hgiven : ∀ function, given function → Tree.IsFunction b.nodes function) :
    ∃ t, b.program body = .ok t := by
  have hfinished : (b.finished body).nodes.size = b.nodes.size + 1 := Array.size_push _
  refine Tree.exists_ofNodes_iff.mpr (Tree.fault?_eq_none_iff.mpr ⟨?_, ?_, fun node hnode => ?_⟩)
  · exact Nat.lt_of_lt_of_eq (Nat.succ_pos _) hfinished.symm
  · exact ⟨_, body, getElem?_add.trans (if_pos (index_nextId hsize)), rfl⟩
  · refine (h.finished hbody).fits (Nat.le_trans (Nat.le_of_eq hfinished) hsize) ?_ hnode
    exact fun function hdeclared => keeps_add.isFunction (hgiven function hdeclared)

end TreeBuilder

/-- The tree is what the calls have described, with a program behind the nodes. -/
structure Built (log : BuildLog) (body : List NodeId) (t : Tree) : Prop where
  rootLast : t.root.index.toNat + 1 = t.size
  rootKind : t.kind? t.root = some (.program body)
  described : ∀ c reply, (.node c, reply) ∈ log → ∃ id, reply = .node id ∧ c.Describes t.names.place t.nodes id
  places : t.names.size ≤ 4294967296 → ∀ c reply, (.node c, reply) ∈ log → ∀ s ∈ c.texts,
    t.names.lookup (t.names.place s) = s
  names : t.names.size ≤ 4294967296 → ∀ s reply, (.name s, reply) ∈ log → ∃ n, reply = .name n ∧ t.names.lookup n = s
  spans : ∀ id, t.Has id → t.span id = log.spanOf id
  bottomUp : t.BottomUp
  acyclic : ∀ id, ¬Relation.TransGen t.IsChild id id

structure Tree.Respanned (t : Tree) (id : NodeId) (span : Span) (t' : Tree) : Prop where
  names : t'.names = t.names
  root : t'.root = t.root
  kinds : ∀ other, t'.kind? other = t.kind? other
  replaced : t'.span id = span
  kept : ∀ other, other ≠ id → t'.span other = t.span other

namespace Accounts

variable {log : BuildLog} {b : TreeBuilder} {body : List NodeId} {t t' : Tree} {id : NodeId} {span : Span}

/-- The program is added as any other node is. -/
theorem finished (h : Accounts log b) (hbody : ∀ id ∈ body, log.Answered id) (hsize : b.nodes.size < 4294967296) :
    Accounts (log ++ [(.node (.alloc (.program body)), .node b.nextId)]) (b.finished body) :=
  h.node (c := .alloc (.program body)) hbody (Nat.le_trans (Nat.le_of_eq (Array.size_push _)) hsize)

theorem built (h : Accounts log b) (hbody : ∀ id ∈ body, log.Answered id) (hsize : b.nodes.size < 4294967296)
    (ht : b.program body = .ok t) : Built log body t := by
  have hfinished := h.finished hbody hsize
  have hlast : (b.finished body).nodes.size = b.nodes.size + 1 := Array.size_push _
  obtain ⟨hnames, hnodes, hroot⟩ := program_eq_ok_iff.mp ht
  have hanswers : ∀ entry ∈ log, (b.finished body).Answers entry := fun entry hentry =>
    hfinished.answers entry (List.mem_append_left _ hentry)
  have hproper : t.names.size ≤ 4294967296 → t.names.Proper := by
    rw [hnames]
    exact h.proper
  have hbottomUp : t.BottomUp := by
    refine Sound.bottomUp (hnodes ▸ hfinished.sound) ?_
    rw [Tree.size, hnodes, hlast]
    exact hsize
  refine ⟨?_, ?_, ?_, ?_, ?_, ?_, hbottomUp, hbottomUp.not_contains_itself⟩
  · rw [hroot, index_nextId hsize, Tree.size, hnodes, hlast]
  · show kindAt t.nodes t.root = some (.program body)
    rw [hnodes, hroot]
    exact kindAt_add (index_nextId hsize)
  · intro c reply hentry
    obtain ⟨⟨id, hreply, hdescribes⟩, -⟩ := hanswers _ hentry
    refine ⟨id, hreply, ?_⟩
    rw [hnodes, hnames]
    exact hdescribes _ (NameTable.named_place b.names)
  · intro hfull c reply hentry s hs
    obtain ⟨n, hn⟩ := (hanswers _ hentry).2 s hs
    exact (hproper hfull).lookup_place (hnames ▸ hn)
  · intro hfull s reply hentry
    obtain ⟨n, hreply, hn⟩ := hanswers _ hentry
    have hn : t.names.find? s = some n := hnames ▸ hn
    refine ⟨n, hreply, ?_⟩
    rw [← NameTable.named_place t.names s n hn]
    exact (hproper hfull).lookup_place hn
  · intro id hid
    obtain ⟨node, hnode⟩ : ∃ node, t.nodes[id.index.toNat]? = some node :=
      ⟨_, Array.getElem?_eq_getElem (Tree.has_iff.mp hid)⟩
    have hspan : t.span id = node.span := by
      rw [Tree.span, Tree.node?, Tree.nodeAt?, hnode]
      rfl
    rw [hspan, hfinished.spans id node (hnodes ▸ hnode)]
    exact BuildLog.spanOf_append rfl (ite_self _)

/-- Replacing one span more makes a tree that differs in that span only. -/
theorem respanned (hid : id.index.toNat < b.nodes.size) (ht : b.program body = .ok t)
    (ht' : ((TreeBuilder.setSpan id span).run b).2.program body = .ok t') : t.Respanned id span t' := by
  obtain ⟨hnames, hnodes, hroot⟩ := program_eq_ok_iff.mp ht
  obtain ⟨hnames', hnodes', hroot'⟩ := program_eq_ok_iff.mp ht'
  have hsize : ((TreeBuilder.setSpan id span).run b).2.nodes.size = b.nodes.size := Array.size_modify
  have hnext : ((TreeBuilder.setSpan id span).run b).2.nextId = b.nextId := by
    rw [nextId, hsize]
    rfl
  have hget : ∀ i, t'.nodes[i]? = if id.index.toNat = i then (t.nodes[i]?).map fun node => { node with span }
      else t.nodes[i]? := by
    intro i
    rw [hnodes, hnodes', TreeBuilder.finished, TreeBuilder.finished, getElem?_add, getElem?_add, hsize, hnext,
      getElem?_setSpan]
    by_cases hi : i = b.nodes.size
    · rw [if_pos hi, if_neg (by omega), if_pos hi]
    · rw [if_neg hi, if_neg hi]
  refine ⟨hnames'.trans hnames.symm, ?_, fun other => ?_, ?_, fun other hother => ?_⟩
  · rw [hroot', hnext, hroot]
  · rw [Tree.kind?, Tree.kind?, Tree.node?, Tree.node?, Tree.nodeAt?, Tree.nodeAt?, hget]
    split
    · rw [Option.map_map]
      rfl
    · rfl
  · have hlt : id.index.toNat < t.nodes.size := by
      rw [hnodes]
      exact Nat.lt_trans hid (Nat.lt_of_lt_of_eq (Nat.lt_succ_self _) (Array.size_push _).symm)
    rw [Tree.span, Tree.node?, Tree.nodeAt?, hget, if_pos rfl, Array.getElem?_eq_getElem hlt]
    rfl
  · have hne : id.index.toNat ≠ other.index.toNat := fun heq => hother (NodeId.eq_of_toNat heq).symm
    rw [Tree.span, Tree.span, Tree.node?, Tree.node?, Tree.nodeAt?, Tree.nodeAt?, hget, if_neg hne]

end Accounts

/-- Any finite sequence of calls that are given ids answered before ends in a tree, unless one of them is given the
declaration of a function that is none.  The program is its last node, every call has got the nodes and names that it
describes and the span that it, or the last replacement since, has given to the node, and no node contains itself.
Replacing one more span changes nothing but that span. -/
theorem built_trees_are_as_described {log : BuildLog} {b : TreeBuilder} {body : List NodeId} (h : Builds log b)
    (hbody : ∀ id ∈ body, log.Answered id) (hsize : b.nodes.size < 4294967296)
    (hfunctions : ∀ function ∈ log.declared, Tree.IsFunction b.nodes function) :
    ∃ t, b.program body = .ok t ∧ Built log body t ∧ ∀ id span, log.Answered id →
      ∃ t', ((TreeBuilder.setSpan id span).run b).2.program body = .ok t' ∧ t.Respanned id span t' := by
  have haccounts := h.accounts (Nat.le_of_lt hsize)
  have hplaces : ∀ id ∈ body, id.index.toNat < b.nodes.size := fun id hid => haccounts.lt_size (hbody id hid)
  obtain ⟨t, ht⟩ := exists_program haccounts.sound hplaces hsize hfunctions
  refine ⟨t, ht, haccounts.built hbody hsize ht, fun id span hid => ?_⟩
  have hkeeps := keeps_setSpan (b := b) id span
  have hsize' : ((TreeBuilder.setSpan id span).run b).2.nodes.size < 4294967296 :=
    Nat.lt_of_le_of_lt (Nat.le_of_eq Array.size_modify) hsize
  obtain ⟨t', ht'⟩ := exists_program (haccounts.sound.setSpan id span)
    (fun id hid => hkeeps.lt_size (hplaces id hid)) hsize'
    fun function hfunction => hkeeps.isFunction (hfunctions function hfunction)
  exact ⟨t', ht', Accounts.respanned (haccounts.lt_size hid) ht ht'⟩

def sampleCalls : BuildLog :=
  [(.name "x", .name ⟨1⟩), (.node (.identifier "x"), .node ⟨0⟩), (.node (.returnStatement (some ⟨0⟩)), .node ⟨1⟩),
    (.node (.functionDeclaration "f" ["x"] [⟨1⟩]), .node ⟨3⟩), (.node (.callNamed "f" []), .node ⟨5⟩),
    (.node (.expressionStatement ⟨5⟩), .node ⟨6⟩), (.setSpan ⟨6⟩ ⟨7, 8⟩, .done), (.node (.arrowBlock [] []), .node ⟨7⟩),
    (.node (.allocAt (.functionDeclaration ⟨1⟩ ⟨7⟩) ⟨2, 4⟩), .node ⟨8⟩), (.setSpan ⟨6⟩ ⟨7, 9⟩, .done)]

theorem built_trees_are_as_described_sample : ∃ b t, Builds sampleCalls b ∧ sampleCalls.declared = [⟨7⟩] ∧
    b.program [⟨3⟩, ⟨6⟩, ⟨8⟩] = .ok t ∧ Built sampleCalls [⟨3⟩, ⟨6⟩, ⟨8⟩] t ∧ sampleCalls.spanOf ⟨6⟩ = ⟨7, 9⟩ ∧
    sampleCalls.spanOf ⟨8⟩ = ⟨2, 4⟩ := by
  have hreplay : (BuildLog.replay [] TreeBuilder.initial sampleCalls).map (fun b =>
      (b.nodes.size, (Tree.nodeAt? b.nodes ⟨7⟩).any fun node => node.kind.isFunction)) = some (9, true) := by
    decide +kernel
  obtain ⟨b, hb, hfacts⟩ := Option.map_eq_some_iff.mp hreplay
  obtain ⟨hsize, hfunction⟩ := Prod.mk.inj hfacts
  have hbuilds : Builds sampleCalls b := builds_of_replay .start hb
  have hbody : ∀ id ∈ ([⟨3⟩, ⟨6⟩, ⟨8⟩] : List NodeId), sampleCalls.Answered id := by decide
  obtain ⟨t, ht, hbuilt, -⟩ := built_trees_are_as_described hbuilds hbody (by omega)
    (List.forall_mem_singleton.mpr (Tree.any_isFunction_iff.mp hfunction))
  exact ⟨b, t, hbuilds, rfl, ht, hbuilt, by decide, by decide⟩

def misdeclaringCalls : BuildLog :=
  [(.node .null, .node ⟨0⟩), (.node (.alloc (.functionDeclaration .empty ⟨0⟩)), .node ⟨1⟩)]

def locatingCalls : BuildLog :=
  [(.node (.allocAt (.literal .null) ⟨40, 44⟩), .node ⟨0⟩)]

/-- The builder does not look into a kind that it is given, so a declaration may be refused in the end; and a node
that is given a span does not get that of its place. -/
theorem raw_calls_are_taken_as_given :
    (∃ b, Builds misdeclaringCalls b ∧ misdeclaringCalls.Answered ⟨1⟩ ∧
      b.program [⟨1⟩] = .error (.functionExpected ⟨0⟩)) ∧
    ∃ b t, Builds locatingCalls b ∧ b.program [⟨0⟩] = .ok t ∧
      t.span ⟨0⟩ = ⟨40, 44⟩ ∧ t.span ⟨0⟩ ≠ Span.synthetic 0 := by
  constructor
  · have hreplay : (BuildLog.replay [] TreeBuilder.initial misdeclaringCalls).map (fun b =>
        Tree.fault? (b.finished [⟨1⟩]).nodes b.nextId) = some (some (.functionExpected ⟨0⟩)) := by decide +kernel
    obtain ⟨b, hb, hfault⟩ := Option.map_eq_some_iff.mp hreplay
    exact ⟨b, builds_of_replay .start hb, by decide, Tree.ofNodes_eq_error_iff.mpr hfault⟩
  · have hreplay : (BuildLog.replay [] TreeBuilder.initial locatingCalls).map (fun b =>
        (Tree.fault? (b.finished [⟨0⟩]).nodes b.nextId,
          (Tree.nodeAt? (b.finished [⟨0⟩]).nodes ⟨0⟩).map Node.span)) = some (none, some ⟨40, 44⟩) := by decide +kernel
    obtain ⟨b, hb, hfacts⟩ := Option.map_eq_some_iff.mp hreplay
    obtain ⟨hfault, hspan⟩ := Prod.mk.inj hfacts
    obtain ⟨t, ht⟩ := Tree.exists_ofNodes_iff.mpr hfault
    have hlocated : t.span ⟨0⟩ = ⟨40, 44⟩ := by
      rw [Tree.span, Tree.node?, (program_eq_ok_iff.mp ht).2.1, hspan]
      rfl
    exact ⟨b, t, builds_of_replay .start hb, ht, hlocated, by rw [hlocated]; decide⟩

end ExplicitControl
