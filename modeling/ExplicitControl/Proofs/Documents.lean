import ExplicitControl.Tree.Decode
import ExplicitControl.Tree.Encode
import ExplicitControl.Proofs.Names

/-!
The document of a tree holds the whole tree. Writer and reader are taken part by part, in the order in which
a document nests them: numbers and places, records, the small contents of nodes, the kinds, the nodes, the
names. A float is the one thing that a document may lose, since none but a finite one can be written.
-/

namespace ExplicitControl

def Literal.isFinite : Literal → Bool
  | .number x => x.isFinite
  | _ => true

def NodeKind.isFinite : NodeKind → Bool
  | .literal l => l.isFinite
  | _ => true

def Tree.FiniteNumbers (t : Tree) : Prop :=
  ∀ n ∈ t.nodes.toList, n.kind.isFinite = true

instance (t : Tree) : Decidable t.FiniteNumbers :=
  inferInstanceAs (Decidable (∀ n ∈ t.nodes.toList, n.kind.isFinite = true))

namespace Decode

/-! ## Places, lists and records -/

@[simp] theorem toUInt32?_ofUInt32 (n : UInt32) : (Json.ofUInt32 n).toUInt32? = some n := by
  have hle : n.toUInt64 ≤ 4294967295 := by
    rw [UInt64.le_iff_toNat_le, UInt32.toNat_toUInt64]
    exact Nat.le_of_lt_succ n.toNat_lt
  rw [Json.ofUInt32, Json.toUInt32?, if_pos hle, UInt32.toUInt32_toUInt64]

@[simp] theorem id_id (n : NodeId) : id (Encode.id n) = some n := by
  simp [id, Encode.id]

@[simp] theorem name_name (n : Name) : name (Encode.name n) = some n := by
  simp [name, Encode.name]

theorem mapM_map {read : Json → Option α} {write : α → Json} (items : List α)
    (h : ∀ a ∈ items, read (write a) = some a) : (items.map write).mapM read = some items := by
  induction items with
  | nil => rfl
  | cons a items ih =>
    have hrest := ih fun b hb => h b (List.mem_cons_of_mem a hb)
    simp [List.mapM_cons, h a (List.mem_cons_self ..), hrest]

theorem toListOf?_array {read : Json → Option α} {write : α → Json} {items : List α}
    (h : ∀ a ∈ items, read (write a) = some a) :
    (Json.array (items.map write)).toListOf? read = some items :=
  mapM_map items h

@[simp] theorem ids_ids (ns : List NodeId) : ids (Encode.ids ns) = some ns :=
  toListOf?_array fun n _ => id_id n

@[simp] theorem names_names (ns : List Name) :
    (Json.array (ns.map Encode.name)).toListOf? name = some ns :=
  toListOf?_array fun n _ => name_name n

@[simp] theorem optional_id (n? : Option NodeId) : optional id (some (Encode.optionalId n?)) = some n? := by
  cases n? with
  | none => rfl
  | some n => exact congrArg (Option.map some) (id_id n)

@[simp] theorem optional_name (n? : Option Name) : optional name (some (Encode.optionalName n?)) = some n? := by
  cases n? with
  | none => rfl
  | some n => exact congrArg (Option.map some) (name_name n)

@[simp] theorem required_some (read : Json → Option α) (j : Json) : required read (some j) = read j := rfl

@[simp] theorem record1_object (a : String) (x : Json) : record1 a (.object [(a, x)]) = some (some x) := by
  simp [record1, fields, Json.membersNamed]

theorem record2_object {a b : String} (x y : Json) (hab : a ≠ b) :
    record2 a b (.object [(a, x), (b, y)]) = some (some x, some y) := by
  simp [record2, fields, Json.membersNamed, hab, hab.symm]

theorem record3_object {a b c : String} (x y z : Json) (hab : a ≠ b) (hac : a ≠ c) (hbc : b ≠ c) :
    record3 a b c (.object [(a, x), (b, y), (c, z)]) = some (some x, some y, some z) := by
  simp [record3, fields, Json.membersNamed, hab, hac, hbc, hab.symm, hac.symm, hbc.symm]

@[simp] theorem choice_tagged (tag : String) (payload : Json) :
    choice (.tagged tag payload) = some (tag, some payload) := rfl

@[simp] theorem choice_string (tag : String) : choice (.string tag) = some (tag, none) := rfl

/-! ## Contents of nodes -/

theorem oneOf_unaryOp (op : UnaryOp) : oneOf UnaryOp.all UnaryOp.tag (.string op.tag) = some op := by
  cases op <;> decide

theorem oneOf_binaryOp (op : BinaryOp) : oneOf BinaryOp.all BinaryOp.tag (.string op.tag) = some op := by
  cases op <;> decide

theorem oneOf_logicalOp (op : LogicalOp) : oneOf LogicalOp.all LogicalOp.tag (.string op.tag) = some op := by
  cases op <;> decide

theorem oneOf_declKind (k : DeclKind) : oneOf DeclKind.all DeclKind.tag (.string k.tag) = some k := by
  cases k <;> decide

@[simp] theorem span_span (s : Span) : span (Encode.span s) = some s := by
  simp [span, Encode.span, record2_object]

theorem literal_literal (l : Literal) (h : l.isFinite = true) : literal (Encode.literal l) = some l := by
  cases l with
  | number x =>
    have hx : x.isFinite = true := h
    simp [literal, Encode.literal, Json.toFloat?, Json.Number.toFloat, hx]
  | _ => simp [literal, Encode.literal, isBare, Json.toBool?, Json.toString?]

@[simp] theorem functionBody_functionBody (body : FunctionBody) :
    functionBody (Encode.functionBody body) = some body := by
  cases body <;> simp [functionBody, Encode.functionBody]

@[simp] theorem memberProperty_memberProperty (p : MemberProperty) :
    memberProperty (Encode.memberProperty p) = some p := by
  cases p <;> simp [memberProperty, Encode.memberProperty]

@[simp] theorem propertyPairs_array (properties : List (Name × NodeId)) :
    (Json.array (properties.map fun (key, value) => .array [Encode.name key, Encode.id value])).toListOf?
      propertyPair = some properties :=
  toListOf?_array fun _ _ => by simp [propertyPair]

/-! ## Kinds of nodes -/

theorem kind_tagged {tag : String} (payload : Json) (h : bareKind tag = none) :
    kind (.tagged tag payload) = (statement tag payload).orElse fun _ => expression tag payload := by
  simp [kind, h]

theorem kind_of_statement {tag : String} {payload : Json} {k : NodeKind} (h : bareKind tag = none)
    (hk : statement tag payload = some k) : kind (.tagged tag payload) = some k := by
  rw [kind_tagged payload h, hk]
  rfl

theorem kind_of_expression {tag : String} {payload : Json} {k : NodeKind} (h : bareKind tag = none)
    (hs : statement tag payload = none) (hk : expression tag payload = some k) :
    kind (.tagged tag payload) = some k := by
  rw [kind_tagged payload h, hs, ← hk]
  rfl

/-- **Every kind of node is read back** as it was written. -/
theorem kind_kind (k : NodeKind) (h : k.isFinite = true) : kind (Encode.kind k) = some k := by
  cases k with
  | breakStatement | continueStatement | debuggerStatement | this =>
    simp [kind, Encode.kind, bareKind, isBare]
  | program | block | expressionStatement | returnStatement =>
    exact kind_of_statement rfl (by simp [statement])
  | declaration =>
    exact kind_of_statement rfl (by simp [statement, record3_object, oneOf_declKind])
  | functionDeclaration | whileLoop => exact kind_of_statement rfl (by simp [statement, record2_object])
  | ifStatement => exact kind_of_statement rfl (by simp [statement, record3_object])
  | forLoop => exact kind_of_statement rfl (by simp [statement, fields, Json.membersNamed])
  | literal l => exact kind_of_expression rfl rfl (by simp [expression, literal_literal l h])
  | identifier | arrayLiteral | objectLiteral => exact kind_of_expression rfl rfl (by simp [expression])
  | function | conditional | memberAssignment =>
    exact kind_of_expression rfl rfl (by simp [expression, record3_object])
  | unary => exact kind_of_expression rfl rfl (by simp [expression, record2_object, oneOf_unaryOp])
  | binary => exact kind_of_expression rfl rfl (by simp [expression, record3_object, oneOf_binaryOp])
  | logical => exact kind_of_expression rfl rfl (by simp [expression, record3_object, oneOf_logicalOp])
  | assignment | call | member => exact kind_of_expression rfl rfl (by simp [expression, record2_object])

theorem node_node (n : Node) (h : n.kind.isFinite = true) : node (Encode.node n) = some n := by
  simp [node, Encode.node, record2_object, kind_kind n.kind h]

/-! ## What a document says is finite -/

/-- What holds of every answer of a rule holds of the answer of a chain that ends in it. -/
theorem all_bind {o : Option α} {f : α → Option β} {p : β → Bool} (h : ∀ a, o = some a → (f a).all p = true) :
    (o.bind f).all p = true := by
  cases o with
  | none => rfl
  | some a => exact h a rfl

theorem literal_isFinite (j : Json) : (literal j).all Literal.isFinite = true := by
  refine all_bind fun (tag, payload) _ => ?_
  dsimp only
  split
  case h_4 =>
    refine all_bind fun x hx => ?_
    obtain ⟨j, hj⟩ : ∃ j : Json, j.toFloat? = some x := by
      cases payload with
      | none => cases hx
      | some j => exact ⟨j, hx⟩
    cases j with
    | number n =>
      rw [Json.toFloat?] at hj
      split at hj
      next hfinite => cases hj; exact hfinite
      next => cases hj
    | _ => cases hj
  case h_1 => split <;> rfl
  case h_2 => split <;> rfl
  all_goals
    first
    | rfl
    | exact all_bind fun _ _ => rfl

theorem statement_isFinite (tag : String) (payload : Json) :
    (statement tag payload).all NodeKind.isFinite = true := by
  unfold statement
  split
  all_goals repeat first | rfl | refine all_bind fun _ _ => ?_ | split

theorem expression_isFinite (tag : String) (payload : Json) :
    (expression tag payload).all NodeKind.isFinite = true := by
  unfold expression
  split
  case h_1 =>
    refine all_bind fun l hl => ?_
    have h := literal_isFinite payload
    rw [hl] at h
    exact h
  all_goals repeat first | rfl | refine all_bind fun _ _ => ?_

theorem bareKind_isFinite {tag : String} {k : NodeKind} (h : bareKind tag = some k) : k.isFinite = true := by
  unfold bareKind at h
  split at h <;> cases h <;> rfl

theorem kind_isFinite (j : Json) : (kind j).all NodeKind.isFinite = true := by
  refine all_bind fun (tag, payload) _ => ?_
  dsimp only
  split
  next hbare =>
    split
    · exact bareKind_isFinite ‹_›
    · rfl
  next payload _ _ =>
    cases hs : statement tag payload with
    | some k => simpa [hs] using statement_isFinite tag payload
    | none => exact expression_isFinite tag payload
  next => rfl

theorem node_isFinite (j : Json) : (node j).all (fun n => n.kind.isFinite) = true := by
  refine all_bind fun (k, s) _ => all_bind fun kind hk => all_bind fun _ _ => ?_
  cases k with
  | none => cases hk
  | some j =>
    have h := kind_isFinite j
    rw [show Decode.kind j = some kind from hk] at h
    exact h

/-- What a reader says of its every answer holds of the items of a list. -/
theorem forall_of_toListOf? {read : Json → Option α} {p : α → Bool} (h : ∀ j, (read j).all p = true) {j : Json}
    {as : List α} (hr : j.toListOf? read = some as) : ∀ a ∈ as, p a = true := by
  simp only [Json.toListOf?, Option.bind_eq_some_iff] at hr
  obtain ⟨items, -, hr⟩ := hr
  induction items generalizing as with
  | nil =>
    obtain rfl : [] = as := by simpa using hr
    simp
  | cons j items ih =>
    simp only [List.mapM_cons, Option.bind_eq_bind, Option.bind_eq_some_iff, Option.pure_def,
      Option.some.injEq] at hr
    obtain ⟨a, ha, rest, hrest, rfl⟩ := hr
    have hj := h j
    rw [ha] at hj
    exact List.forall_mem_cons.mpr ⟨hj, ih hrest⟩

end Decode

namespace Tree

/-- A tree is accepted again. -/
theorem ofNodes_nodes (t : Tree) : ofNodes t.names t.nodes t.root = .ok t := by
  unfold ofNodes
  split
  next error h => exact absurd (t.accepted.symm.trans h) nofun
  next => rfl

theorem eq_of_ofNodes {names : NameTable} {nodes : Array Node} {root : NodeId} {t : Tree}
    (h : ofNodes names nodes root = .ok t) : names = t.names ∧ nodes = t.nodes := by
  unfold ofNodes at h
  split at h
  next => cases h
  next => cases h; exact ⟨rfl, rfl⟩

/-- **Loading what was saved** gives the tree back, with the same text at every place of its names. -/
theorem ofJson_toJson (t : Tree) (hnames : t.names.Proper) (hfinite : t.FiniteNumbers) :
    ofJson t.toJson = .ok t := by
  have hstrings : (Json.array (t.names.strings.toList.map .string)).toListOf? Json.toString? =
      some t.names.strings.toList :=
    Decode.toListOf?_array fun _ _ => rfl
  have hnodes : (Json.array (t.nodes.toList.map Encode.node)).toListOf? Decode.node = some t.nodes.toList :=
    Decode.toListOf?_array fun n hn => Decode.node_node n (hfinite n hn)
  simp only [ofJson, toJson, Decode.record3_object _ _ _ (by decide : "names" ≠ "nodes")
    (by decide : "names" ≠ "root") (by decide : "nodes" ≠ "root"), Decode.required_some, hstrings,
    hnames.ofList_strings, hnodes, Decode.id_id, Array.toArray_toList, ofNodes_nodes]

/-- What is loaded has names that interning makes and numbers that can be written. -/
theorem grown_of_ofJson {j : Json} {t : Tree} (h : ofJson j = .ok t) : t.names.Grown ∧ t.FiniteNumbers := by
  unfold ofJson at h
  split at h
  · cases h
  next nodes _ _ =>
  split at h
  · cases h
  split at h
  · cases h
  next table htable =>
  split at h
  next hnodes _ =>
    split at h
    · cases h
    next tree htree =>
    obtain rfl : tree = t := by simpa using h
    obtain ⟨rfl, hlist⟩ := eq_of_ofNodes htree
    refine ⟨NameTable.grown_of_ofList htable, fun n hn => ?_⟩
    rw [← hlist] at hn
    revert hnodes
    cases nodes with
    | none => nofun
    | some j =>
      intro hnodes
      exact Decode.forall_of_toListOf? Decode.node_isFinite hnodes n (by simpa using hn)
  next => cases h

/-- **Saving and loading trees.** A tree whose names were interned and whose numbers are finite is loaded
from its own document as it is: nodes, spans, root, and the text at every place of its names. Every tree that
was loaded from some document is such a tree, so saving it and loading it again gives it back. -/
theorem documents_hold_trees :
    (∀ t : Tree, t.names.Grown → t.FiniteNumbers → ofJson t.toJson = .ok t) ∧
      ∀ (j : Json) (t : Tree), ofJson j = .ok t → ofJson t.toJson = .ok t := by
  refine ⟨fun t hnames hfinite => t.ofJson_toJson hnames.proper hfinite, fun j t h => ?_⟩
  obtain ⟨hnames, hfinite⟩ := grown_of_ofJson h
  exact t.ofJson_toJson hnames.proper hfinite

/-- The program `let answer = 1;`. -/
def letAnswer : Tree where
  names := ⟨#["", "answer"]⟩
  nodes := #[⟨.literal (.number 1), Span.synthetic 0⟩, ⟨.declaration .letKind ⟨1⟩ ⟨0⟩, Span.synthetic 1⟩,
    ⟨.program [⟨1⟩], Span.synthetic 2⟩]
  root := ⟨2⟩
  accepted := by decide

def nothing : Tree where
  names := .initial
  nodes := #[⟨.program [], Span.dummy⟩]
  root := ⟨0⟩
  accepted := by decide

/-- A document of the empty program that no tree is saved as: its records are arrays, its table lacks the
empty text. -/
def shortDocument : Json :=
  .array [.array [], .array [.array [.tagged "Program" (.array [.array []]), .array [.ofUInt32 0, .ofUInt32 0]]],
    .ofUInt32 0]

theorem ofJson_shortDocument : ofJson shortDocument = .ok nothing := rfl

theorem documents_hold_letAnswer :
    (letAnswer.names.Grown ∧ letAnswer.FiniteNumbers ∧ ofJson letAnswer.toJson = .ok letAnswer) ∧
      ofJson shortDocument = .ok nothing ∧ ofJson nothing.toJson = .ok nothing := by
  have hnames : letAnswer.names.Grown := by
    have h := NameTable.Grown.initial.intern "answer" (.inr (by decide))
    rwa [NameTable.intern_fresh (by simp [NameTable.initial])] at h
  have hfinite : letAnswer.FiniteNumbers := by decide
  exact ⟨⟨hnames, hfinite, documents_hold_trees.1 letAnswer hnames hfinite⟩, ofJson_shortDocument,
    documents_hold_trees.2 shortDocument nothing ofJson_shortDocument⟩

end Tree

end ExplicitControl
