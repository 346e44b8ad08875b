import ExplicitControl.Proofs.Jumps
import ExplicitControl.Proofs.Values

/-!
# Every node that a machine refers to is a node of its tree

Nodes are numbers, and nothing in a number says that there is such a node.  An accepted tree has all children
of all its nodes; so a machine that starts at the root schedules nodes of the tree only, whatever is kept in
instructions, closures and captured continuations on the way.  A closure's node is a function, and the number
of a continuation is that of a snapshot.
-/

namespace ExplicitControl

namespace Tree

def Has (t : Tree) (id : NodeId) : Prop :=
  ∃ kind, t.kind? id = some kind

theorem has_iff {t : Tree} {id : NodeId} : t.Has id ↔ id.index.toNat < t.nodes.size := by
  unfold Has kind? node? nodeAt?
  -- Nodes are looked up by their number, which the array has or has not.
  constructor
  · rintro ⟨kind, h⟩
    obtain ⟨node, hnode, -⟩ := Option.map_eq_some_iff.mp h
    exact (Array.getElem?_eq_some_iff.mp hnode).1
  · intro h
    exact ⟨_, by rw [Array.getElem?_eq_getElem h]; rfl⟩

theorem nodeFault?_eq_none (t : Tree) {id : NodeId} {kind : NodeKind} (h : t.kind? id = some kind) :
    nodeFault? t.nodes id.index.toNat kind = none := by
  obtain ⟨node, hnode, rfl⟩ := Option.map_eq_some_iff.mp h
  have accepted := t.accepted
  unfold fault? at accepted
  split at accepted
  · cases accepted
  · split at accepted
    · refine List.findSome?_eq_none_iff.mp accepted (node, id.index.toNat) ?_
      rw [List.mem_zipIdx_iff_getElem?, Array.getElem?_toList]
      exact hnode
    · cases accepted

/-- The children of a node are nodes of the tree. -/
theorem has_of_mem_children (t : Tree) {id : NodeId} {kind : NodeKind} (h : t.kind? id = some kind)
    {child : NodeId} (hchild : child ∈ kind.children) : t.Has child := by
  have accepted := t.nodeFault?_eq_none h
  unfold nodeFault? at accepted
  split at accepted
  · cases accepted
  next hfind =>
    rw [has_iff]
    simpa using List.find?_eq_none.mp hfind child hchild

theorem kind?_root (t : Tree) : ∃ body, t.kind? t.root = some (.program body) := by
  have accepted := t.accepted
  unfold fault? at accepted
  split at accepted
  · cases accepted
  · split at accepted
    next hroot =>
      -- The third check of a tree is that its root is a program.
      unfold kind? node?
      cases hnode : nodeAt? t.nodes t.root with
      | none => rw [hnode] at hroot; cases hroot
      | some node =>
        rw [hnode, Option.any_some] at hroot
        cases hk : node.kind with
        | program body => exact ⟨body, congrArg some hk⟩
        | _ => rw [hk] at hroot; cases hroot
    · cases accepted

end Tree

def Instr.nodes : Instr → List NodeId
  | .reset | .marker _ | .pop | .push _ | .pushUndefinedIfNeeded | .restore .. | .freshTrip _ => []
  | .assign _ node | .declare _ node | .unary _ node | .binary _ node | .apply _ _ node
  | .breakLoop node | .continueLoop node | .makeArray _ node | .makeObject _ node | .memberGet node
  | .memberSet node | .methodLookup _ node => [node]
  | .logical _ right node => [right, node]
  | .branch consequent alternate node => consequent :: node :: alternate.toList
  | .whileTest test body node => [test, body, node]
  | .forTest test update body _ node => body :: node :: (test.toList ++ update.toList)

variable (t : Tree) (n : Nat)

def Value.InTree (v : Value) : Prop :=
  match v with
  | .closure _ f => ∃ name params body, t.kind? f.node = some (.function name params body)
  | .continuation snapshot => snapshot < n
  | _ => True

def Item.InTree (item : Item) : Prop :=
  match item with
  | .node id => t.Has id
  | .instr i => (∀ id ∈ i.nodes, t.Has id) ∧ ∀ v, i = .push v → v.InTree t n

structure Snapshot.InTree (k : Snapshot) : Prop where
  agenda : ∀ item ∈ k.agenda, item.InTree t n
  stash : ∀ v ∈ k.stash, v.InTree t n

structure State.InTree (s : State) : Prop where
  agenda : ∀ item ∈ s.agenda, item.InTree t s.snapshots.size
  stash : ∀ v ∈ s.stash, v.InTree t s.snapshots.size
  scopes : s.scopes.All (Value.InTree t s.snapshots.size)
  heap : s.heap.All (Value.InTree t s.snapshots.size)
  snapshots : ∀ k ∈ s.snapshots, k.InTree t s.snapshots.size
  current : ∀ id ∈ s.current, t.Has id

variable {t n}

theorem Value.inTree_of_isInert {v : Value} (h : v.isInert = true) : v.InTree t n := by
  cases v with
  | closure => cases h
  | continuation => cases h
  | _ => trivial

theorem Value.InTree.mono {m : Nat} (hnm : n ≤ m) {v : Value} (h : v.InTree t n) : v.InTree t m := by
  cases v with
  | continuation snapshot => exact Nat.lt_of_lt_of_le h hnm
  | closure identity f => exact h
  | _ => trivial

theorem Item.InTree.mono {m : Nat} (hnm : n ≤ m) {item : Item} (h : item.InTree t n) :
    item.InTree t m := by
  cases item with
  | node id => exact h
  | instr i => exact ⟨h.1, fun v hv => (h.2 v hv).mono hnm⟩

end ExplicitControl
