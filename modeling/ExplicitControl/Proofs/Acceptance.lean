import ExplicitControl.Tree.Basic

/-!
# Which lists of nodes are trees

A list of nodes is accepted exactly when it has a program as its root, every id that a node stores is the
number of a node, and every declared function is one.  Where ids can be stored is said by `NodeKind.Holds`, with a
case for each such place of each kind, and not by the traversal that the check goes by; the two agree.  A list that
is not accepted is refused for the first thing that is wrong with it.
-/

namespace ExplicitControl

/-! ## 1. Ids stored in nodes -/

namespace NodeKind

/-- The kind stores the id: one case for each place that holds an id. -/
inductive Holds : NodeKind → NodeId → Prop where
  | programStatement {body : List NodeId} {id : NodeId} (h : id ∈ body) : Holds (.program body) id
  | blockStatement {body : List NodeId} {id : NodeId} (h : id ∈ body) : Holds (.block body) id
  | statementExpression {expr : NodeId} : Holds (.expressionStatement expr) expr
  | initial {kind : DeclKind} {name : Name} {init : NodeId} : Holds (.declaration kind name init) init
  | declaredFunction {name : Name} {function : NodeId} : Holds (.functionDeclaration name function) function
  | returned {argument : NodeId} : Holds (.returnStatement (some argument)) argument
  | ifTest {test consequent : NodeId} {alternate : Option NodeId} : Holds (.ifStatement test consequent alternate) test
  | ifConsequent {test consequent : NodeId} {alternate : Option NodeId} :
      Holds (.ifStatement test consequent alternate) consequent
  | ifAlternate {test consequent alternate : NodeId} : Holds (.ifStatement test consequent (some alternate)) alternate
  | whileTest {test body : NodeId} : Holds (.whileLoop test body) test
  | whileBody {test body : NodeId} : Holds (.whileLoop test body) body
  | forInit {init body : NodeId} {test update : Option NodeId} : Holds (.forLoop (some init) test update body) init
  | forTest {test body : NodeId} {init update : Option NodeId} : Holds (.forLoop init (some test) update body) test
  | forUpdate {update body : NodeId} {init test : Option NodeId} : Holds (.forLoop init test (some update) body) update
  | forBody {init test update : Option NodeId} {body : NodeId} : Holds (.forLoop init test update body) body
  | functionExpression {name : Option Name} {params : List Name} {expr : NodeId} :
      Holds (.function name params (.expression expr)) expr
  | functionStatement {name : Option Name} {params : List Name} {body : List NodeId} {id : NodeId} (h : id ∈ body) :
      Holds (.function name params (.block body)) id
  | operand {op : UnaryOp} {operand : NodeId} : Holds (.unary op operand) operand
  | binaryLeft {op : BinaryOp} {left right : NodeId} : Holds (.binary op left right) left
  | binaryRight {op : BinaryOp} {left right : NodeId} : Holds (.binary op left right) right
  | logicalLeft {op : LogicalOp} {left right : NodeId} : Holds (.logical op left right) left
  | logicalRight {op : LogicalOp} {left right : NodeId} : Holds (.logical op left right) right
  | test {test consequent alternate : NodeId} : Holds (.conditional test consequent alternate) test
  | consequent {test consequent alternate : NodeId} : Holds (.conditional test consequent alternate) consequent
  | alternate {test consequent alternate : NodeId} : Holds (.conditional test consequent alternate) alternate
  | assigned {name : Name} {value : NodeId} : Holds (.assignment name value) value
  | callee {callee : NodeId} {args : List NodeId} : Holds (.call callee args) callee
  | argument {callee id : NodeId} {args : List NodeId} (h : id ∈ args) : Holds (.call callee args) id
  | element {elements : List NodeId} {id : NodeId} (h : id ∈ elements) : Holds (.arrayLiteral elements) id
  | propertyValue {properties : List (Name × NodeId)} {name : Name} {id : NodeId} (h : (name, id) ∈ properties) :
      Holds (.objectLiteral properties) id
  | memberObject {object : NodeId} {property : MemberProperty} : Holds (.member object property) object
  | memberKey {object key : NodeId} : Holds (.member object (.computed key)) key
  | targetObject {object value : NodeId} {property : MemberProperty} :
      Holds (.memberAssignment object property value) object
  | targetKey {object key value : NodeId} : Holds (.memberAssignment object (.computed key) value) key
  | targetValue {object value : NodeId} {property : MemberProperty} :
      Holds (.memberAssignment object property value) value

variable {kind : NodeKind} {id : NodeId}

theorem Holds.mem_children (h : kind.Holds id) : id ∈ kind.children := by
  cases h with
  | propertyValue h => exact List.mem_map_of_mem h
  | programStatement h | blockStatement h | functionStatement h | element h => exact h
  | argument h => exact List.mem_cons_of_mem _ h
  | _ => simp [children, MemberProperty.key?]

theorem holds_of_mem_children (h : id ∈ kind.children) : kind.Holds id := by
  cases kind with
  | program body => exact .programStatement h
  | block body => exact .blockStatement h
  | expressionStatement expr => exact List.mem_singleton.mp h ▸ .statementExpression
  | declaration kind name init => exact List.mem_singleton.mp h ▸ .initial
  | functionDeclaration name function => exact List.mem_singleton.mp h ▸ .declaredFunction
  | returnStatement argument =>
    obtain rfl : argument = some id := Option.mem_toList.mp h
    exact .returned
  | ifStatement test consequent alternate =>
    obtain rfl | h := List.mem_cons.mp h
    · exact .ifTest
    obtain rfl | h := List.mem_cons.mp h
    · exact .ifConsequent
    obtain rfl : alternate = some id := Option.mem_toList.mp h
    exact .ifAlternate
  | whileLoop test body =>
    obtain rfl | h := List.mem_cons.mp h
    · exact .whileTest
    · exact List.mem_singleton.mp h ▸ .whileBody
  | forLoop init test update body =>
    simp only [children, List.mem_append, Option.mem_toList, List.mem_singleton] at h
    obtain ((rfl | rfl) | rfl) | rfl := h
    · exact .forInit
    · exact .forTest
    · exact .forUpdate
    · exact .forBody
  | function name params body =>
    cases body with
    | expression expr => exact List.mem_singleton.mp h ▸ .functionExpression
    | block body => exact .functionStatement h
  | unary op operand => exact List.mem_singleton.mp h ▸ .operand
  | binary op left right =>
    obtain rfl | h := List.mem_cons.mp h
    · exact .binaryLeft
    · exact List.mem_singleton.mp h ▸ .binaryRight
  | logical op left right =>
    obtain rfl | h := List.mem_cons.mp h
    · exact .logicalLeft
    · exact List.mem_singleton.mp h ▸ .logicalRight
  | conditional test consequent alternate =>
    obtain rfl | h := List.mem_cons.mp h
    · exact .test
    obtain rfl | h := List.mem_cons.mp h
    · exact .consequent
    · exact List.mem_singleton.mp h ▸ .alternate
  | assignment name value => exact List.mem_singleton.mp h ▸ .assigned
  | call callee args =>
    obtain rfl | h := List.mem_cons.mp h
    · exact .callee
    · exact .argument h
  | arrayLiteral elements => exact .element h
  | objectLiteral properties =>
    obtain ⟨⟨name, value⟩, hproperty, rfl⟩ := List.mem_map.mp h
    exact .propertyValue hproperty
  | member object property =>
    obtain rfl | h := List.mem_cons.mp h
    · exact .memberObject
    cases property with
    | named name => cases h
    | computed key => exact List.mem_singleton.mp h ▸ .memberKey
  | memberAssignment object property value =>
    obtain rfl | h := List.mem_cons.mp h
    · exact .targetObject
    obtain h | h := List.mem_append.mp h
    · cases property with
      | named name => cases h
      | computed key => exact List.mem_singleton.mp h ▸ .targetKey
    · exact List.mem_singleton.mp h ▸ .targetValue
  | breakStatement | continueStatement | debuggerStatement | literal _ | identifier _ | this => cases h

/-- The children of a node are the ids that it stores. -/
theorem mem_children_iff : id ∈ kind.children ↔ kind.Holds id :=
  ⟨holds_of_mem_children, Holds.mem_children⟩

end NodeKind

namespace Tree

variable {nodes : Array Node} {root id : NodeId} {kind : NodeKind} {error : TreeError} {index : Nat}

/-! ## 2. What is asked of a node -/

def InRange (nodes : Array Node) (id : NodeId) : Prop :=
  id.index.toNat < nodes.size

instance (nodes : Array Node) (id : NodeId) : Decidable (InRange nodes id) :=
  inferInstanceAs (Decidable (_ < _))

def IsProgram (nodes : Array Node) (id : NodeId) : Prop :=
  ∃ node body, nodes[id.index.toNat]? = some node ∧ node.kind = .program body

def IsFunction (nodes : Array Node) (id : NodeId) : Prop :=
  ∃ node name params body, nodes[id.index.toNat]? = some node ∧ node.kind = .function name params body

structure Fits (nodes : Array Node) (kind : NodeKind) : Prop where
  inRange : ∀ id, kind.Holds id → InRange nodes id
  declares : ∀ name function, kind = .functionDeclaration name function → IsFunction nodes function

/-- What is wrong with the node at a place: the first of its children that is missing, else what it declares as a
function. -/
inductive Misfit (nodes : Array Node) (index : Nat) (kind : NodeKind) : TreeError → Prop where
  | dangling {before after : List NodeId} {parent child : NodeId} (hparent : parent.index.toNat = index)
      (hchildren : kind.children = before ++ child :: after) (hbefore : ∀ id ∈ before, InRange nodes id)
      (hchild : ¬InRange nodes child) : Misfit nodes index kind (.danglingChild parent child)
  | function {name : Name} {function : NodeId} (hkind : kind = .functionDeclaration name function)
      (hrange : InRange nodes function) (hfunction : ¬IsFunction nodes function) :
      Misfit nodes index kind (.functionExpected function)

/-- The first thing that is wrong with a list of nodes and a root. -/
inductive FirstFault (nodes : Array Node) (root : NodeId) : TreeError → Prop where
  | empty (h : nodes.size = 0) : FirstFault nodes root .empty
  | root (h : 0 < nodes.size) (hroot : ¬IsProgram nodes root) : FirstFault nodes root (.rootNotProgram root)
  | node {index : Nat} {node : Node} {error : TreeError} (h : 0 < nodes.size) (hroot : IsProgram nodes root)
      (hnode : nodes[index]? = some node)
      (hbefore : ∀ j < index, ∀ earlier, nodes[j]? = some earlier → Fits nodes earlier.kind)
      (herror : Misfit nodes index node.kind error) : FirstFault nodes root error

theorem any_isProgram_iff : ((nodeAt? nodes id).any fun node => node.kind.isProgram) = true ↔ IsProgram nodes id := by
  unfold IsProgram nodeAt?
  rw [Option.any_eq_true]
  constructor
  · rintro ⟨node, hnode, h⟩
    cases hkind : node.kind with
    | program body => exact ⟨node, body, hnode, hkind⟩
    | _ => rw [hkind] at h; cases h
  · rintro ⟨node, body, hnode, hkind⟩
    exact ⟨node, hnode, by rw [hkind]; rfl⟩

theorem any_isFunction_iff :
    ((nodeAt? nodes id).any fun node => node.kind.isFunction) = true ↔ IsFunction nodes id := by
  unfold IsFunction nodeAt?
  rw [Option.any_eq_true]
  constructor
  · rintro ⟨node, hnode, h⟩
    cases hkind : node.kind with
    | function name params body => exact ⟨node, name, params, body, hnode, hkind⟩
    | _ => rw [hkind] at h; cases h
  · rintro ⟨node, name, params, body, hnode, hkind⟩
    exact ⟨node, hnode, by rw [hkind]; rfl⟩

/-- Nothing is missing exactly when the search for what is missing finds nothing. -/
theorem find?_missing_eq_none_iff :
    (kind.children.find? fun child => nodes.size ≤ child.index.toNat) = none ↔
      ∀ id, kind.Holds id → InRange nodes id := by
  simp [NodeKind.mem_children_iff, InRange]

theorem nodeFault?_eq_none_iff : nodeFault? nodes index kind = none ↔ Fits nodes kind := by
  unfold nodeFault?
  constructor
  · intro h
    split at h
    · cases h
    next hfind =>
      refine ⟨find?_missing_eq_none_iff.mp hfind, ?_⟩
      rintro name function rfl
      dsimp only at h
      split at h
      next hfunction => exact any_isFunction_iff.mp hfunction
      · cases h
  · rintro ⟨hrange, hdeclares⟩
    rw [find?_missing_eq_none_iff.mpr hrange]
    cases kind with
    | functionDeclaration name function => exact if_pos (any_isFunction_iff.mpr (hdeclares name function rfl))
    | _ => rfl

/-- What the check of a node finds is what is wrong with the node. -/
theorem nodeFault?_eq_some_iff (hindex : index < nodes.size) :
    nodeFault? nodes index kind = some error ↔ Misfit nodes index kind error := by
  unfold nodeFault?
  constructor
  · intro h
    split at h
    next child hfind =>
      obtain ⟨hchild, before, after, hchildren, hbefore⟩ := List.find?_eq_some_iff_append.mp hfind
      obtain rfl := Option.some.inj h
      have hchild : nodes.size ≤ child.index.toNat := of_decide_eq_true hchild
      -- The missing child has a number, so that of its parent does not overflow.
      have hbound := child.index.toNat_lt
      refine .dangling (Nat.mod_eq_of_lt (by omega)) hchildren (fun id hid => ?_) (Nat.not_lt.mpr hchild)
      simpa [InRange] using hbefore id hid
    next hfind =>
      split at h
      next name function =>
        split at h
        · cases h
        next hfunction =>
          obtain rfl := Option.some.inj h
          exact .function rfl (find?_missing_eq_none_iff.mp hfind function .declaredFunction) fun hf =>
            hfunction (any_isFunction_iff.mpr hf)
      · cases h
  · intro h
    cases h with
    | @dangling before after parent child hparent hchildren hbefore hchild =>
      have hfind : (kind.children.find? fun id => nodes.size ≤ id.index.toNat) = some child :=
        List.find?_eq_some_iff_append.mpr
          ⟨decide_eq_true (Nat.le_of_not_lt hchild), before, after, hchildren, fun id hid => by
            simpa [InRange] using hbefore id hid⟩
      have hplace : parent = ⟨index.toUInt32⟩ := by
        rw [← hparent]
        exact congrArg NodeId.mk (UInt32.ofNat_toNat).symm
      rw [hfind, hplace]
    | @function name function hkind hrange hfunction =>
      subst hkind
      have hfind : ((NodeKind.functionDeclaration name function).children.find? fun id =>
          nodes.size ≤ id.index.toNat) = none := by
        simpa [NodeKind.children, InRange] using hrange
      rw [hfind]
      exact if_neg fun h => hfunction (any_isFunction_iff.mp h)

/-! ## 3. The first fault -/

/-- A search through a list by places stops at the first place where it finds something. -/
theorem findSome?_zipIdx_eq_some_iff {α β : Type} {f : α × Nat → Option β} {b : β} {l : List α} :
    l.zipIdx.findSome? f = some b ↔
      ∃ i a, l[i]? = some a ∧ f (a, i) = some b ∧ ∀ j < i, ∀ c, l[j]? = some c → f (c, j) = none := by
  have hget : ∀ i, l.zipIdx[i]? = l[i]?.map fun a => (a, i) := fun i => by rw [List.getElem?_zipIdx, Nat.zero_add]
  rw [List.findSome?_eq_some_iff]
  constructor
  · rintro ⟨before, place, after, hl, hb, hbefore⟩
    have hlast : l.zipIdx[before.length]? = some place := by
      rw [hl, List.getElem?_append_right (Nat.le_refl _), Nat.sub_self, List.getElem?_cons_zero]
    obtain ⟨a, ha, rfl⟩ := Option.map_eq_some_iff.mp ((hget before.length).symm.trans hlast)
    refine ⟨before.length, a, ha, hb, fun j hj c hc => hbefore (c, j) ?_⟩
    have hplace := hget j
    rw [hl, List.getElem?_append_left hj, hc] at hplace
    exact List.mem_of_getElem? hplace
  · rintro ⟨i, a, ha, hb, hbefore⟩
    have hlast : l.zipIdx[i]? = some (a, i) := by rw [hget, ha, Option.map_some]
    obtain ⟨hi, hplace⟩ := List.getElem?_eq_some_iff.mp hlast
    refine ⟨l.zipIdx.take i, (a, i), l.zipIdx.drop (i + 1), ?_, hb, fun place hearlier => ?_⟩
    · rw [← hplace, List.getElem_cons_drop, List.take_append_drop]
    · obtain ⟨j, hj, rfl⟩ := List.mem_take_iff_getElem.mp hearlier
      have hlt : j < i := Nat.lt_of_lt_of_le hj (Nat.min_le_left _ _)
      obtain ⟨c, hc, hplace⟩ := Option.map_eq_some_iff.mp ((hget j).symm.trans (List.getElem?_eq_getElem _))
      exact hplace ▸ hbefore j hlt c hc

/-- What the check of a list finds is the first thing that is wrong with it. -/
theorem fault?_eq_some_iff : fault? nodes root = some error ↔ FirstFault nodes root error := by
  unfold fault?
  constructor
  · intro h
    split at h
    next hempty =>
      obtain rfl := Option.some.inj h
      exact .empty (by simpa using hempty)
    next hempty =>
      have hsize : 0 < nodes.size := Nat.pos_of_ne_zero (by simpa using hempty)
      split at h
      next hroot =>
        obtain ⟨i, node, hnode, herror, hbefore⟩ := findSome?_zipIdx_eq_some_iff.mp h
        rw [Array.getElem?_toList] at hnode
        refine .node hsize (any_isProgram_iff.mp hroot) hnode (fun j hj earlier hearlier => ?_)
          ((nodeFault?_eq_some_iff (Array.getElem?_eq_some_iff.mp hnode).1).mp herror)
        exact nodeFault?_eq_none_iff.mp (hbefore j hj earlier (by rwa [Array.getElem?_toList]))
      next hroot =>
        obtain rfl := Option.some.inj h
        exact .root hsize fun hprogram => hroot (any_isProgram_iff.mpr hprogram)
  · intro h
    cases h with
    | empty h => exact if_pos (by simpa using h)
    | root h hroot =>
      rw [if_neg (by simpa using Nat.ne_of_gt h), if_neg fun hprogram => hroot (any_isProgram_iff.mp hprogram)]
    | @node i node _ h hroot hnode hbefore herror =>
      rw [if_neg (by simpa using Nat.ne_of_gt h), if_pos (any_isProgram_iff.mpr hroot)]
      refine findSome?_zipIdx_eq_some_iff.mpr ⟨i, node, by rwa [Array.getElem?_toList],
        (nodeFault?_eq_some_iff (Array.getElem?_eq_some_iff.mp hnode).1).mpr herror, fun j hj earlier hearlier => ?_⟩
      rw [Array.getElem?_toList] at hearlier
      exact nodeFault?_eq_none_iff.mpr (hbefore j hj earlier hearlier)

/-- A list without faults is not empty, has a program as its root, and nothing is wrong with its nodes. -/
theorem fault?_eq_none_iff : fault? nodes root = none ↔
    0 < nodes.size ∧ IsProgram nodes root ∧ ∀ node ∈ nodes.toList, Fits nodes node.kind := by
  unfold fault?
  constructor
  · intro h
    split at h
    · cases h
    next hempty =>
      split at h
      next hroot =>
        refine ⟨Nat.pos_of_ne_zero (by simpa using hempty), any_isProgram_iff.mp hroot, fun node hnode => ?_⟩
        obtain ⟨i, hi⟩ := List.mem_iff_getElem?.mp hnode
        have hmem : (node, i) ∈ nodes.toList.zipIdx := List.mem_zipIdx_iff_getElem?.mpr hi
        exact nodeFault?_eq_none_iff.mp (List.findSome?_eq_none_iff.mp h (node, i) hmem)
      · cases h
  · rintro ⟨hsize, hroot, hfits⟩
    rw [if_neg (by simpa using Nat.ne_of_gt hsize), if_pos (any_isProgram_iff.mpr hroot)]
    refine List.findSome?_eq_none_iff.mpr fun ⟨node, i⟩ hmem => nodeFault?_eq_none_iff.mpr (hfits node ?_)
    exact List.mem_of_getElem? (List.mem_zipIdx_iff_getElem?.mp hmem)

theorem ofNodes_eq_error_iff {names : NameTable} :
    ofNodes names nodes root = .error error ↔ fault? nodes root = some error := by
  unfold ofNodes
  split
  next e h => rw [h, Except.error.injEq, Option.some.injEq]
  next h => simp [h]

theorem ofNodes_eq_ok_iff {names : NameTable} {t : Tree} :
    ofNodes names nodes root = .ok t ↔ t.names = names ∧ t.nodes = nodes ∧ t.root = root := by
  unfold ofNodes
  split
  next e h =>
    refine ⟨nofun, ?_⟩
    rintro ⟨rfl, rfl, rfl⟩
    exact absurd (t.accepted.symm.trans h) nofun
  next h =>
    rw [Except.ok.injEq]
    constructor
    · rintro rfl
      exact ⟨rfl, rfl, rfl⟩
    · rintro ⟨rfl, rfl, rfl⟩
      rfl

theorem exists_ofNodes_iff {names : NameTable} :
    (∃ t, ofNodes names nodes root = .ok t) ↔ fault? nodes root = none := by
  constructor
  · rintro ⟨t, ht⟩
    obtain ⟨rfl, rfl, rfl⟩ := ofNodes_eq_ok_iff.mp ht
    exact t.accepted
  · exact fun h => ⟨⟨names, nodes, root, h⟩, ofNodes_eq_ok_iff.mpr ⟨rfl, rfl, rfl⟩⟩

end Tree

end ExplicitControl
