import ExplicitControl.Proofs.Placement

/-!
# Declarations where declarations belong

A declaration belongs directly into a list of statements, whose scope declares its variable beforehand, or into
the head of a `for`.  Nothing keeps a tree from having one elsewhere; then it gives its value to a variable of
some scope around, or to none.
-/

namespace ExplicitControl

namespace NodeKind

def isDeclaration : NodeKind → Bool
  | declaration .. | functionDeclaration .. => true
  | _ => false

def isFunctionDeclaration : NodeKind → Bool
  | functionDeclaration .. => true
  | _ => false

def head? : NodeKind → Option NodeId
  | forLoop init _ _ _ => init
  | _ => none

/-- The children of which no declaration is expected: all but the statements of a list and the head of a
`for`. -/
def inner : NodeKind → List NodeId
  | program _ | block _ | function _ _ (.block _) => []
  | forLoop _ test update body => test.toList ++ update.toList ++ [body]
  | kind => kind.children

end NodeKind

namespace Tree

def DeclaresInPlace (t : Tree) : Prop :=
  ∀ node ∈ t.nodes.toList, ∀ id ∈ node.kind.inner, (t.kind? id).any NodeKind.isDeclaration = false

instance (t : Tree) : Decidable t.DeclaresInPlace :=
  inferInstanceAs (Decidable (∀ node ∈ t.nodes.toList, _))

def HeadsDeclareVariables (t : Tree) : Prop :=
  ∀ node ∈ t.nodes.toList, ∀ id ∈ node.kind.head?, (t.kind? id).any NodeKind.isFunctionDeclaration = false

instance (t : Tree) : Decidable t.HeadsDeclareVariables :=
  inferInstanceAs (Decidable (∀ node ∈ t.nodes.toList, _))

def declaration? (t : Tree) (id : NodeId) : Option (NodeId × Name × DeclKind) :=
  match t.kind? id with
  | some (.declaration kind name _) => some (id, name, kind)
  | some (.functionDeclaration name _) => some (id, name, .constKind)
  | _ => none

theorem declarations_eq (t : Tree) (body : List NodeId) : t.declarations body = body.filterMap t.declaration? := rfl

variable {t : Tree} {id child : NodeId} {kind : NodeKind}

theorem exists_node (hkind : t.kind? id = some kind) : ∃ node ∈ t.nodes.toList, node.kind = kind := by
  obtain ⟨node, hnode, rfl⟩ := Option.map_eq_some_iff.mp hkind
  exact ⟨node, Array.mem_toList_iff.mpr (Array.mem_of_getElem? hnode), rfl⟩

theorem DeclaresInPlace.inner (ht : t.DeclaresInPlace) (hkind : t.kind? id = some kind) (hchild : child ∈ kind.inner)
    {childKind : NodeKind} (h : t.kind? child = some childKind) : childKind.isDeclaration = false := by
  obtain ⟨node, hnode, rfl⟩ := exists_node hkind
  simpa [h] using ht node hnode child hchild

theorem HeadsDeclareVariables.head (ht : t.HeadsDeclareVariables) {init test update : Option NodeId} {body : NodeId}
    (hkind : t.kind? id = some (.forLoop init test update body)) (hchild : child ∈ init) {childKind : NodeKind}
    (h : t.kind? child = some childKind) : childKind.isFunctionDeclaration = false := by
  obtain ⟨node, hnode, heq⟩ := exists_node hkind
  simpa [h] using ht node hnode child (by rw [heq]; exact hchild)

end Tree

end ExplicitControl
