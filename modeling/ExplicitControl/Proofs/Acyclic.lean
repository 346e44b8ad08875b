import ExplicitControl.Proofs.Nesting
import Mathlib.Algebra.GroupWithZero.Nat
import Mathlib.Data.List.Perm.Subperm

/-!
# Trees in which no node contains itself

The check of a list of nodes does not keep a node from containing itself.  Where no node does that is ever
evaluated, evaluating one is a finite affair: a way down from it is shorter than there are nodes, so what it can cost is
computed by going down as often as there are nodes.  Trees that are built bottom up are of this sort.
-/

namespace ExplicitControl

namespace NodeKind

/-- The children that evaluating the node leads to.  The body of a function is left to its calls. -/
def evaluates : NodeKind → List NodeId
  | function .. => []
  | kind => kind.children

theorem mem_children_of_mem_evaluates {kind : NodeKind} {id : NodeId} (h : id ∈ kind.evaluates) :
    id ∈ kind.children := by
  cases kind with
  | function name params body => cases h
  | _ => exact h

/-- A bound for what evaluating the node costs, if evaluating a child costs `c`: each child may bring an
instruction along, and so may the node itself, its scope and its end. -/
def toll (c : NodeId → Nat) (kind : NodeKind) : Nat :=
  5 + (kind.evaluates.map fun id => c id + 1).sum

end NodeKind

namespace Tree

variable {t : Tree} {id child : NodeId} {kind : NodeKind} {n : Nat}

/-! ## 1. What is evaluated for what -/

def Evaluates (t : Tree) (id child : NodeId) : Prop :=
  ∃ kind, t.kind? id = some kind ∧ child ∈ kind.evaluates

def Reached (t : Tree) (id : NodeId) : Prop :=
  Relation.ReflTransGen t.Evaluates t.root id

/-- Evaluating a node never leads to that node again, if evaluating the root leads to it at all. -/
def Unknotted (t : Tree) : Prop :=
  ∀ id, t.Reached id → ¬Relation.TransGen t.Evaluates id id

theorem Evaluates.has (h : t.Evaluates id child) : t.Has child := by
  obtain ⟨kind, hkind, hchild⟩ := h
  exact t.has_of_mem_children hkind (NodeKind.mem_children_of_mem_evaluates hchild)

theorem Reached.has (h : t.Reached id) : t.Has id := by
  cases h with
  | refl =>
    obtain ⟨body, hroot⟩ := t.kind?_root
    exact ⟨_, hroot⟩
  | tail _ hlast => exact hlast.has

theorem Reached.to_child (h : t.Reached id) (hkind : t.kind? id = some kind) (hchild : child ∈ kind.evaluates) :
    t.Reached child :=
  Relation.ReflTransGen.tail h ⟨kind, hkind, hchild⟩

/-! ## 2. Ways down -/

/-- There is a way of `n` nodes down from the node. -/
def Descends (t : Tree) : Nat → NodeId → Prop
  | 0, _ => True
  | n + 1, id => ∃ child, t.Evaluates id child ∧ t.Descends n child

/-- In an unknotted tree, a way down goes through different nodes. -/
theorem Descends.exists_nodup (ht : t.Unknotted) (hid : t.Reached id) (h : t.Descends n id) :
    ∃ way : List NodeId, way.length = n + 1 ∧ way.Nodup ∧ ∀ x ∈ way, Relation.ReflTransGen t.Evaluates id x := by
  induction n generalizing id with
  | zero => exact ⟨[id], rfl, List.nodup_singleton id, List.forall_mem_singleton.mpr .refl⟩
  | succ n ih =>
    obtain ⟨child, hchild, hdown⟩ := h
    obtain ⟨way, hlength, hnodup, hway⟩ := ih (Relation.ReflTransGen.tail hid hchild) hdown
    refine ⟨id :: way, congrArg (· + 1) hlength, List.nodup_cons.mpr ⟨fun hmem => ?_, hnodup⟩, ?_⟩
    · exact ht id hid (Relation.TransGen.head' hchild (hway id hmem))
    · exact List.forall_mem_cons.mpr ⟨.refl, fun x hx => .head hchild (hway x hx)⟩

/-- In an unknotted tree, no way down is longer than there are nodes. -/
theorem Unknotted.not_descends (ht : t.Unknotted) (hid : t.Reached id) : ¬t.Descends t.size id := by
  intro h
  obtain ⟨way, hlength, hnodup, hway⟩ := h.exists_nodup ht hid
  have hplaces : (way.map fun x => x.index.toNat).Nodup :=
    hnodup.map fun x y hxy => congrArg NodeId.mk (UInt32.toNat_inj.mp hxy)
  have hbound : ∀ place ∈ way.map fun x => x.index.toNat, place ∈ List.range t.size := by
    intro place hplace
    obtain ⟨x, hx, rfl⟩ := List.mem_map.mp hplace
    have hreached : t.Reached x := Relation.ReflTransGen.trans hid (hway x hx)
    exact List.mem_range.mpr (has_iff.mp hreached.has)
  have hle := (hplaces.subperm hbound).length_le
  rw [List.length_map, List.length_range, hlength] at hle
  exact Nat.not_succ_le_self _ hle

/-! ## 3. What evaluating costs -/

/-- What evaluating a node costs at most, its children being looked at down to a depth. -/
def cost (t : Tree) : Nat → NodeId → Nat
  | 0, _ => 0
  | n + 1, id => ((t.kind? id).map (NodeKind.toll (t.cost n))).getD 0

def work (t : Tree) : NodeId → Nat :=
  t.cost t.size

/-- Below the end of all ways down there is nothing to look at. -/
theorem cost_succ_of_not_descends (h : ¬t.Descends n id) : t.cost (n + 1) id = t.cost n id := by
  induction n generalizing id with
  | zero => exact absurd trivial h
  | succ n ih =>
    show ((t.kind? id).map (NodeKind.toll (t.cost (n + 1)))).getD 0 =
      ((t.kind? id).map (NodeKind.toll (t.cost n))).getD 0
    cases hkind : t.kind? id with
    | none => rfl
    | some kind =>
      have hchildren : ∀ child ∈ kind.evaluates, t.cost (n + 1) child + 1 = t.cost n child + 1 := fun child hchild =>
        congrArg (· + 1) (ih fun hdown => h ⟨child, ⟨kind, hkind, hchild⟩, hdown⟩)
      exact congrArg (5 + List.sum ·) (List.map_congr_left hchildren)

/-- The cost of a node comes from those of its children. -/
theorem Unknotted.work_eq (ht : t.Unknotted) (hid : t.Reached id) (hkind : t.kind? id = some kind) :
    t.work id = kind.toll t.work := by
  rw [work, ← cost_succ_of_not_descends (ht.not_descends hid), cost, hkind]
  rfl

/-! ## 4. Trees built bottom up -/

def BottomUp (t : Tree) : Prop :=
  ∀ i (_ : i < t.nodes.size), ∀ child ∈ t.nodes[i].kind.children, child.index.toNat < i

instance (t : Tree) : Decidable t.BottomUp :=
  inferInstanceAs (Decidable (∀ i (_ : i < t.nodes.size), _))

theorem BottomUp.lt (ht : t.BottomUp) (h : t.IsChild child id) : child.index.toNat < id.index.toNat := by
  obtain ⟨kind, hkind, hchild⟩ := h
  obtain ⟨node, hnode, rfl⟩ := Option.map_eq_some_iff.mp hkind
  obtain ⟨hlt, rfl⟩ := Array.getElem?_eq_some_iff.mp hnode
  exact ht _ hlt child hchild

/-- In a tree built bottom up, no node contains itself. -/
theorem BottomUp.not_contains_itself (ht : t.BottomUp) (id : NodeId) : ¬Relation.TransGen t.IsChild id id := by
  have hlt : ∀ x, Relation.TransGen t.IsChild x id → x.index.toNat < id.index.toNat := by
    intro x hx
    induction hx using Relation.TransGen.head_induction_on with
    | single h => exact ht.lt h
    | head h _ ih => exact Nat.lt_trans (ht.lt h) ih
  exact fun h => Nat.lt_irrefl _ (hlt id h)

theorem Evaluates.isChild (h : t.Evaluates id child) : t.IsChild child id := by
  obtain ⟨kind, hkind, hchild⟩ := h
  exact ⟨kind, hkind, NodeKind.mem_children_of_mem_evaluates hchild⟩

theorem BottomUp.unknotted (ht : t.BottomUp) : t.Unknotted := by
  intro id _ h
  refine ht.not_contains_itself id ?_
  -- Containing and being contained are the same way, from its two ends.
  rw [← Relation.transGen_swap]
  exact Relation.TransGen.mono (fun _ _ h => h.isChild) id id h

end Tree

end ExplicitControl
