import ExplicitControl.Proofs.Acceptance
import ExplicitControl.Proofs.Names
import ExplicitControl.Tree.Builder

/-!
# What the calls of a builder add

Whoever builds a tree calls the functions of a builder, one after another, with ids that earlier calls have answered.
Each of these functions interns some texts and adds a node or two; what it adds is said in one table, with a
naming in place of the names.  Names keep their texts while a table grows, and nodes their kinds while nodes are
added; and as a call only refers to nodes that are there, children come before their parents.
-/

namespace ExplicitControl

/-! ## 1. Names of interned texts -/

namespace NameTable

variable {t : NameTable} {s s' : String} {n : Name} {texts : List String} {ν : String → Name}

def withTexts (t : NameTable) : List String → NameTable
  | [] => t
  | s :: rest => (t.intern s).2.withTexts rest

/-- The naming gives every text of the table its place. -/
def Named (t : NameTable) (ν : String → Name) : Prop :=
  ∀ s n, t.find? s = some n → ν s = n

def place (t : NameTable) (s : String) : Name :=
  (t.find? s).getD .empty

theorem named_place (t : NameTable) : t.Named t.place :=
  fun s n h => by rw [place, h]; rfl

theorem find?_eq_some_iff : t.find? s = some n ↔
    ∃ i : Fin t.strings.size, (t.strings[i] = s ∧ ∀ j : Fin t.strings.size, j < i → t.strings[j] ≠ s) ∧
      n = ⟨i.val.toUInt32⟩ := by
  simp only [find?, Array.idxOf?, Option.map_eq_some_iff, Array.finIdxOf?_eq_some_iff]
  constructor
  · rintro ⟨_, ⟨i, hi, rfl⟩, rfl⟩
    exact ⟨i, hi, rfl⟩
  · rintro ⟨i, hi, rfl⟩
    exact ⟨_, ⟨i, hi, rfl⟩, rfl⟩

/-- Interning a text answers its place. -/
theorem find?_intern_self (t : NameTable) (s : String) : (t.intern s).2.find? s = some (t.intern s).1 := by
  cases h : t.find? s with
  | some n => rw [intern, h]; exact h
  | none =>
    have hnew : s ∉ t.strings := find?_eq_none_iff.mp h
    rw [intern_fresh hnew, find?_eq_some_iff]
    refine ⟨⟨t.strings.size, by simp⟩, ⟨by simp, fun j hj heq => hnew ?_⟩, rfl⟩
    have hlt : j.val < t.strings.size := hj
    rw [Fin.getElem_fin, Array.getElem_push_lt hlt] at heq
    exact heq ▸ Array.getElem_mem hlt

/-- Places do not change. -/
theorem find?_intern_of_find? (h : t.find? s = some n) : (t.intern s').2.find? s = some n := by
  by_cases hs' : s' ∈ t.strings
  · rwa [intern_present hs']
  · obtain ⟨i, ⟨hi, hbefore⟩, rfl⟩ := find?_eq_some_iff.mp h
    rw [intern_fresh hs', find?_eq_some_iff]
    refine ⟨⟨i.val, by rw [Array.size_push]; omega⟩, ⟨?_, fun j hj heq => ?_⟩, rfl⟩
    · rw [Fin.getElem_fin, Array.getElem_push_lt i.isLt]
      exact hi
    · have hlt : j.val < t.strings.size := Nat.lt_trans hj i.isLt
      rw [Fin.getElem_fin, Array.getElem_push_lt hlt] at heq
      exact hbefore ⟨j.val, hlt⟩ hj heq

theorem find?_withTexts_of_find? (h : t.find? s = some n) : (t.withTexts texts).find? s = some n := by
  induction texts generalizing t with
  | nil => exact h
  | cons s' rest ih => exact ih (find?_intern_of_find? h)

theorem exists_find?_withTexts (h : s ∈ texts) : ∃ n, (t.withTexts texts).find? s = some n := by
  induction texts generalizing t with
  | nil => cases h
  | cons s' rest ih =>
    obtain rfl | h := List.mem_cons.mp h
    · have hplace : ((t.intern s).2.withTexts rest).find? s = some (t.intern s).1 :=
        find?_withTexts_of_find? (find?_intern_self t s)
      exact ⟨_, hplace⟩
    · exact ih h

theorem Named.eq_intern (h : ((t.intern s).2.withTexts texts).Named ν) : ν s = (t.intern s).1 :=
  h s (t.intern s).1 (find?_withTexts_of_find? (find?_intern_self t s))

theorem size_le_size_intern (t : NameTable) (s : String) : t.size ≤ (t.intern s).2.size := by
  by_cases h : s ∈ t.strings
  · exact Nat.le_of_eq (congrArg size (intern_present h).symm)
  · rw [intern_fresh h, size, size, Array.size_push]
    exact Nat.le_succ _

theorem size_le_size_withTexts (t : NameTable) (texts : List String) : t.size ≤ (t.withTexts texts).size := by
  induction texts generalizing t with
  | nil => exact Nat.le_refl _
  | cons s rest ih => exact Nat.le_trans (size_le_size_intern t s) (ih _)

/-- A table stays proper as long as it is not full. -/
theorem Proper.withTexts (ht : t.Proper) (h : (t.withTexts texts).size ≤ 4294967296) : (t.withTexts texts).Proper := by
  induction texts generalizing t with
  | nil => exact ht
  | cons s rest ih =>
    refine ih (ht.intern ?_) h
    have hle := Nat.le_trans (size_le_size_withTexts (t.intern s).2 rest) h
    by_cases hs : s ∈ t.strings
    · exact .inl hs
    · rw [intern_fresh hs, size, Array.size_push] at hle
      exact .inr hle

theorem Proper.lookup_place (ht : t.Proper) (h : t.find? s = some n) : t.lookup (t.place s) = s := by
  rw [named_place t s n h, lookup, Array.getD_eq_getD_getElem?, ht.find?_eq_some_iff.mp h]
  rfl

end NameTable

/-! ## 2. Calls -/

inductive NodeCall where
  | alloc (kind : NodeKind)
  | allocAt (kind : NodeKind) (span : Span)
  | number (x : Float)
  | string (s : String)
  | bool (b : Bool)
  | null
  | undefined
  | identifier (s : String)
  | this
  | unary (op : UnaryOp) (operand : NodeId)
  | binary (op : BinaryOp) (left right : NodeId)
  | logical (op : LogicalOp) (left right : NodeId)
  | conditional (test consequent alternate : NodeId)
  | assignment (s : String) (value : NodeId)
  | call (callee : NodeId) (args : List NodeId)
  | callNamed (s : String) (args : List NodeId)
  | arrow (params : List String) (expr : NodeId)
  | arrowBlock (params : List String) (body : List NodeId)
  | functionDeclaration (s : String) (params : List String) (body : List NodeId)
  | array (elements : List NodeId)
  | object (properties : List (String × NodeId))
  | memberAt (object key : NodeId)
  | memberNamed (object : NodeId) (field : String)
  | assignAt (object key value : NodeId)
  | assignNamed (object : NodeId) (field : String) (value : NodeId)
  | methodCall (object : NodeId) (method : String) (args : List NodeId)
  | expressionStatement (expr : NodeId)
  | declaration (kind : DeclKind) (s : String) (init : NodeId)
  | returnStatement (argument : Option NodeId)
  | ifStatement (test consequent : NodeId) (alternate : Option NodeId)
  | whileLoop (test body : NodeId)
  | forLoop (init test update : Option NodeId) (body : NodeId)
  | breakStatement
  | continueStatement
  | debuggerStatement
  | block (body : List NodeId)

namespace NodeCall

def perform : NodeCall → BuildM NodeId
  | alloc kind => TreeBuilder.alloc kind
  | allocAt kind span => TreeBuilder.allocAt kind span
  | number x => TreeBuilder.number x
  | string s => TreeBuilder.string s
  | bool b => TreeBuilder.bool b
  | null => TreeBuilder.null
  | undefined => TreeBuilder.undefined
  | identifier s => TreeBuilder.identifier s
  | this => TreeBuilder.this
  | unary op operand => TreeBuilder.unary op operand
  | binary op left right => TreeBuilder.binary op left right
  | logical op left right => TreeBuilder.logical op left right
  | conditional test consequent alternate => TreeBuilder.conditional test consequent alternate
  | assignment s value => TreeBuilder.assignment s value
  | call callee args => TreeBuilder.call callee args
  | callNamed s args => TreeBuilder.callNamed s args
  | arrow params expr => TreeBuilder.arrow params expr
  | arrowBlock params body => TreeBuilder.arrowBlock params body
  | functionDeclaration s params body => TreeBuilder.functionDeclaration s params body
  | array elements => TreeBuilder.array elements
  | object properties => TreeBuilder.object properties
  | memberAt target key => TreeBuilder.memberAt target key
  | memberNamed target field => TreeBuilder.memberNamed target field
  | assignAt target key value => TreeBuilder.assignAt target key value
  | assignNamed target field value => TreeBuilder.assignNamed target field value
  | methodCall target method args => TreeBuilder.methodCall target method args
  | expressionStatement expr => TreeBuilder.expressionStatement expr
  | declaration kind s init => TreeBuilder.declaration kind s init
  | returnStatement argument => TreeBuilder.returnStatement argument
  | ifStatement test consequent alternate => TreeBuilder.ifStatement test consequent alternate
  | whileLoop test body => TreeBuilder.whileLoop test body
  | forLoop init test update body => TreeBuilder.forLoop init test update body
  | breakStatement => TreeBuilder.breakStatement
  | continueStatement => TreeBuilder.continueStatement
  | debuggerStatement => TreeBuilder.debuggerStatement
  | block body => TreeBuilder.block body

def ids : NodeCall → List NodeId
  | alloc kind | allocAt kind _ => kind.children
  | number _ | string _ | bool _ | null | undefined | identifier _ | this | breakStatement | continueStatement
  | debuggerStatement => []
  | unary _ id | assignment _ id | arrow _ id | memberNamed id _ | expressionStatement id | declaration _ _ id => [id]
  | binary _ left right | logical _ left right | memberAt left right | assignNamed left _ right
  | whileLoop left right => [left, right]
  | conditional first second third | assignAt first second third => [first, second, third]
  | call id rest | methodCall id _ rest => id :: rest
  | callNamed _ args | arrowBlock _ args | functionDeclaration _ _ args | array args | block args => args
  | object properties => properties.map Prod.snd
  | returnStatement argument => argument.toList
  | ifStatement test consequent alternate => test :: consequent :: alternate.toList
  | forLoop init test update body => init.toList ++ test.toList ++ update.toList ++ [body]

def texts : NodeCall → List String
  | identifier s | assignment s _ | callNamed s _ | memberNamed _ s | assignNamed _ s _ | methodCall _ s _
  | declaration _ s _ => [s]
  | arrow params _ | arrowBlock params _ => params
  | functionDeclaration s params _ => s :: params
  | object properties => properties.map Prod.fst
  | _ => []

/-- The node that the call adds in front of that of its answer, if it adds two. -/
def inner? (ν : String → Name) : NodeCall → Option NodeKind
  | callNamed s _ => some (.identifier (ν s))
  | functionDeclaration s params body => some (.function (some (ν s)) (params.map ν) (.block body))
  | methodCall target method _ => some (.member target (.named (ν method)))
  | _ => none

/-- The node of the answer; `inner` is the node in front of it, if there is one. -/
def outer (ν : String → Name) (inner : NodeId) : NodeCall → NodeKind
  | alloc kind | allocAt kind _ => kind
  | number x => .literal (.number x)
  | string s => .literal (.string s)
  | bool b => .literal (.bool b)
  | null => .literal .null
  | undefined => .literal .undefined
  | identifier s => .identifier (ν s)
  | this => .this
  | unary op operand => .unary op operand
  | binary op left right => .binary op left right
  | logical op left right => .logical op left right
  | conditional test consequent alternate => .conditional test consequent alternate
  | assignment s value => .assignment (ν s) value
  | call callee args => .call callee args
  | callNamed _ args => .call inner args
  | arrow params expr => .function none (params.map ν) (.expression expr)
  | arrowBlock params body => .function none (params.map ν) (.block body)
  | functionDeclaration s _ _ => .functionDeclaration (ν s) inner
  | array elements => .arrayLiteral elements
  | object properties => .objectLiteral (properties.map fun property => (ν property.1, property.2))
  | memberAt target key => .member target (.computed key)
  | memberNamed target field => .member target (.named (ν field))
  | assignAt target key value => .memberAssignment target (.computed key) value
  | assignNamed target field value => .memberAssignment target (.named (ν field)) value
  | methodCall _ _ args => .call inner args
  | expressionStatement expr => .expressionStatement expr
  | declaration kind s init => .declaration kind (ν s) init
  | returnStatement argument => .returnStatement argument
  | ifStatement test consequent alternate => .ifStatement test consequent alternate
  | whileLoop test body => .whileLoop test body
  | forLoop init test update body => .forLoop init test update body
  | breakStatement => .breakStatement
  | continueStatement => .continueStatement
  | debuggerStatement => .debuggerStatement
  | block body => .block body

def given? : NodeCall → Option Span
  | allocAt _ span => some span
  | _ => none

end NodeCall

namespace TreeBuilder

variable {b : TreeBuilder} {ν : String → Name} {α β : Type}

def add (b : TreeBuilder) (kind : NodeKind) (span : Span) : TreeBuilder :=
  { b with nodes := b.nodes.push ⟨kind, span⟩ }

def naming (b : TreeBuilder) (texts : List String) : TreeBuilder :=
  { b with names := b.names.withTexts texts }

theorem run_bind (x : BuildM α) (f : α → BuildM β) (b : TreeBuilder) :
    (x >>= f).run b = (f (x.run b).1).run (x.run b).2 := rfl

theorem run_name (s : String) (b : TreeBuilder) :
    (name s).run b = ((b.names.intern s).1, b.naming [s]) := rfl

/-- A text that is interned gets the name that any later naming gives it. -/
theorem run_name_bind {s : String} {rest : List String} (hν : (b.names.withTexts (s :: rest)).Named ν)
    (f : Name → BuildM α) : (name s >>= f).run b = (f (ν s)).run (b.naming [s]) := by
  rw [run_bind, run_name, NameTable.Named.eq_intern hν]

/-- Interning a text for each member of a list makes the list with names in place of the texts. -/
theorem run_mapM_named {f : α → BuildM β} (text : α → String) (make : Name → α → β)
    (hf : ∀ a b, (f a).run b = (make (b.names.intern (text a)).1 a, b.naming [text a])) (as : List α) (b : TreeBuilder)
    (hν : (b.names.withTexts (as.map text)).Named ν) :
    (as.mapM f).run b = (as.map fun a => make (ν (text a)) a, b.naming (as.map text)) := by
  induction as generalizing b with
  | nil => rfl
  | cons a rest ih =>
    rw [List.mapM_cons, run_bind, hf a b]
    have hrest := ih (b.naming [text a]) hν
    have hname : ν (text a) = (b.names.intern (text a)).1 := NameTable.Named.eq_intern hν
    rw [run_bind, hrest, List.map_cons, hname]
    rfl

theorem run_params_bind {params : List String} (hν : (b.names.withTexts params).Named ν) (f : List Name → BuildM α) :
    (params.mapM name >>= f).run b = (f (params.map ν)).run (b.naming params) := by
  have hnames := run_mapM_named id (fun n _ => n) run_name params b (by rwa [List.map_id])
  rw [List.map_id] at hnames
  rw [run_bind, hnames]
  rfl

theorem run_properties_bind {properties : List (String × NodeId)}
    (hν : (b.names.withTexts (properties.map Prod.fst)).Named ν) (f : List (Name × NodeId) → BuildM α) :
    ((properties.mapM fun (key, value) => return (← name key, value)) >>= f).run b =
      (f (properties.map fun property => (ν property.1, property.2))).run (b.naming (properties.map Prod.fst)) := by
  have hpairs : (properties.mapM fun ((key, value) : String × NodeId) => return (← name key, value)).run b =
      (properties.map fun property => (ν property.1, property.2), b.naming (properties.map Prod.fst)) :=
    run_mapM_named Prod.fst (fun n property => (n, property.2)) (fun _ _ => rfl) properties b hν
  rw [run_bind, hpairs]

end TreeBuilder

namespace NodeCall

open TreeBuilder

variable {ν : String → Name} {b : TreeBuilder} {c : NodeCall}

/-- The builder when only the node of the answer is left to be added. -/
def begun (c : NodeCall) (ν : String → Name) (b : TreeBuilder) : TreeBuilder :=
  match c.inner? ν with
  | some kind => (b.naming c.texts).add kind (Span.synthetic b.nextId.index)
  | none => b.naming c.texts

/-- What a call does: its texts get names, its nodes are added, and the last of them is the answer. -/
theorem run_perform (c : NodeCall) (b : TreeBuilder) (hν : (b.names.withTexts c.texts).Named ν) :
    c.perform.run b = ((c.begun ν b).nextId,
      (c.begun ν b).add (c.outer ν b.nextId) (c.given?.getD (Span.synthetic (c.begun ν b).nextId.index))) := by
  cases c with
  | identifier s => exact run_name_bind hν fun n => TreeBuilder.alloc (.identifier n)
  | assignment s value => exact run_name_bind hν fun n => TreeBuilder.alloc (.assignment n value)
  | callNamed s args =>
    exact run_name_bind hν fun n => TreeBuilder.alloc (.identifier n) >>= fun id => TreeBuilder.call id args
  | memberNamed target field => exact run_name_bind hν fun n => TreeBuilder.alloc (.member target (.named n))
  | assignNamed target field value =>
    exact run_name_bind hν fun n => TreeBuilder.alloc (.memberAssignment target (.named n) value)
  | methodCall target method args =>
    exact run_name_bind hν fun n =>
      TreeBuilder.alloc (.member target (.named n)) >>= fun id => TreeBuilder.call id args
  | declaration kind s init => exact run_name_bind hν fun n => TreeBuilder.alloc (.declaration kind n init)
  | arrow params expr =>
    exact run_params_bind hν fun names => TreeBuilder.alloc (.function none names (.expression expr))
  | arrowBlock params body =>
    exact run_params_bind hν fun names => TreeBuilder.alloc (.function none names (.block body))
  | functionDeclaration s params body =>
    refine (run_name_bind hν fun n => params.mapM TreeBuilder.name >>= fun names =>
      TreeBuilder.alloc (.function (some n) names (.block body)) >>= fun id =>
        TreeBuilder.alloc (.functionDeclaration n id)).trans ?_
    exact run_params_bind (b := b.naming [s]) hν fun names =>
      TreeBuilder.alloc (.function (some (ν s)) names (.block body)) >>= fun id =>
        TreeBuilder.alloc (.functionDeclaration (ν s) id)
  | object properties => exact run_properties_bind hν fun properties => TreeBuilder.alloc (.objectLiteral properties)
  | _ => rfl

end NodeCall

/-! ## 3. Kinds that are kept -/

theorem NodeId.eq_of_toNat {a b : NodeId} (h : a.index.toNat = b.index.toNat) : a = b := by
  cases a
  cases b
  exact congrArg NodeId.mk (UInt32.toNat_inj.mp h)

namespace TreeBuilder

variable {nodes nodes' : Array Node} {b : TreeBuilder} {id : NodeId} {kind : NodeKind} {span : Span}

def kindAt (nodes : Array Node) (id : NodeId) : Option NodeKind :=
  (nodes[id.index.toNat]?).map Node.kind

def Keeps (nodes nodes' : Array Node) : Prop :=
  ∀ id kind, kindAt nodes id = some kind → kindAt nodes' id = some kind

theorem Keeps.trans {nodes'' : Array Node} (h : Keeps nodes nodes') (h' : Keeps nodes' nodes'') : Keeps nodes nodes'' :=
  fun id kind hkind => h' id kind (h id kind hkind)

theorem getElem?_add {i : Nat} :
    (b.add kind span).nodes[i]? = if i = b.nodes.size then some ⟨kind, span⟩ else b.nodes[i]? :=
  Array.getElem?_push

theorem getElem?_add_of_lt {i : Nat} (h : i < b.nodes.size) : (b.add kind span).nodes[i]? = b.nodes[i]? := by
  rw [getElem?_add, if_neg (Nat.ne_of_lt h)]

theorem keeps_add : Keeps b.nodes (b.add kind span).nodes := by
  intro id k hk
  obtain ⟨node, hnode, rfl⟩ := Option.map_eq_some_iff.mp hk
  exact Option.map_eq_some_iff.mpr ⟨node, (getElem?_add_of_lt (Array.getElem?_eq_some_iff.mp hnode).1).trans hnode, rfl⟩

theorem kindAt_add (h : id.index.toNat = b.nodes.size) : kindAt (b.add kind span).nodes id = some kind := by
  rw [kindAt, getElem?_add, if_pos h]
  rfl

theorem lt_size_iff : id.index.toNat < nodes.size ↔ ∃ kind, kindAt nodes id = some kind := by
  constructor
  · exact fun h => ⟨_, Option.map_eq_some_iff.mpr ⟨_, Array.getElem?_eq_getElem h, rfl⟩⟩
  · rintro ⟨kind, hkind⟩
    obtain ⟨node, hnode, -⟩ := Option.map_eq_some_iff.mp hkind
    exact (Array.getElem?_eq_some_iff.mp hnode).1

theorem Keeps.lt_size (h : Keeps nodes nodes') (hid : id.index.toNat < nodes.size) : id.index.toNat < nodes'.size := by
  obtain ⟨kind, hkind⟩ := lt_size_iff.mp hid
  exact lt_size_iff.mpr ⟨kind, h id kind hkind⟩

theorem index_nextId (h : b.nodes.size < 4294967296) : b.nextId.index.toNat = b.nodes.size := by
  rw [nextId, if_pos (Nat.le_of_lt_succ h)]
  exact UInt32.toNat_ofNat_of_lt h

theorem isFunction_iff : Tree.IsFunction nodes id ↔
    ∃ name params body, kindAt nodes id = some (.function name params body) := by
  simp only [Tree.IsFunction, kindAt, Option.map_eq_some_iff]
  constructor
  · rintro ⟨node, name, params, body, hnode, hkind⟩
    exact ⟨name, params, body, node, hnode, hkind⟩
  · rintro ⟨name, params, body, node, hnode, hkind⟩
    exact ⟨node, name, params, body, hnode, hkind⟩

theorem Keeps.isFunction (h : Keeps nodes nodes') (hid : Tree.IsFunction nodes id) : Tree.IsFunction nodes' id := by
  obtain ⟨name, params, body, hkind⟩ := isFunction_iff.mp hid
  exact isFunction_iff.mpr ⟨name, params, body, h id _ hkind⟩

/-! ### Changing a span -/

theorem nodes_setSpan (id : NodeId) (span : Span) (b : TreeBuilder) :
    ((setSpan id span).run b).2.nodes = b.nodes.modify id.index.toNat fun node => { node with span } := rfl

theorem getElem?_setSpan {i : Nat} : ((setSpan id span).run b).2.nodes[i]? =
    if id.index.toNat = i then (b.nodes[i]?).map fun node => { node with span } else b.nodes[i]? := by
  rw [nodes_setSpan, Array.getElem?_modify]

theorem kindAt_setSpan (id id' : NodeId) (span : Span) (b : TreeBuilder) :
    kindAt ((setSpan id span).run b).2.nodes id' = kindAt b.nodes id' := by
  rw [kindAt, kindAt, getElem?_setSpan]
  split
  · rw [Option.map_map]
    rfl
  · rfl

theorem keeps_setSpan (id : NodeId) (span : Span) : Keeps b.nodes ((setSpan id span).run b).2.nodes :=
  fun id' kind hkind => by rwa [kindAt_setSpan]

/-! ### Sound nodes -/

/-- Children come before their parents, and what is declared as a function is one or has been given as one. -/
structure Sound (nodes : Array Node) (given : NodeId → Prop) : Prop where
  rising : ∀ id kind, kindAt nodes id = some kind → ∀ child ∈ kind.children, child.index.toNat < id.index.toNat
  declares : ∀ id name function, kindAt nodes id = some (.functionDeclaration name function) →
    Tree.IsFunction nodes function ∨ given function

variable {given given' : NodeId → Prop}

theorem Sound.mono (h : Sound nodes given) (hgiven : ∀ function, given function → given' function) :
    Sound nodes given' :=
  ⟨h.rising, fun id name function hkind => (h.declares id name function hkind).imp_right (hgiven function)⟩

theorem Sound.add (h : Sound b.nodes given) (hchildren : ∀ child ∈ kind.children, child.index.toNat < b.nodes.size)
    (hdeclares : ∀ name function, kind = .functionDeclaration name function →
      Tree.IsFunction b.nodes function ∨ given function) :
    Sound (b.add kind span).nodes given := by
  have cases_kind : ∀ id k, kindAt (b.add kind span).nodes id = some k →
      (id.index.toNat = b.nodes.size ∧ kind = k) ∨ kindAt b.nodes id = some k := by
    intro id k hk
    rw [kindAt, getElem?_add] at hk
    split at hk
    next heq => exact .inl ⟨heq, Option.some.inj hk⟩
    next => exact .inr hk
  constructor
  · intro id k hk child hchild
    obtain ⟨hplace, rfl⟩ | hold := cases_kind id k hk
    · rw [hplace]
      exact hchildren child hchild
    · exact h.rising id k hold child hchild
  · intro id name function hk
    obtain ⟨-, heq⟩ | hold := cases_kind id _ hk
    · exact (hdeclares name function heq).imp_left keeps_add.isFunction
    · exact (h.declares id name function hold).imp_left keeps_add.isFunction

theorem Sound.setSpan (h : Sound b.nodes given) (id : NodeId) (span : Span) :
    Sound ((setSpan id span).run b).2.nodes given := by
  constructor
  · intro id' kind hkind
    rw [kindAt_setSpan] at hkind
    exact h.rising id' kind hkind
  · intro id' name function hkind
    rw [kindAt_setSpan] at hkind
    exact (h.declares id' name function hkind).imp_left (keeps_setSpan id span).isFunction

end TreeBuilder

/-! ## 4. What one call adds -/

namespace NodeCall

open TreeBuilder

variable {ν : String → Name} {c : NodeCall} {b : TreeBuilder} {kind : NodeKind} {id inner child : NodeId}
  {nodes nodes' : Array Node}

/-- The nodes that a call describes: the answer is that of the call, and the node in front of it the one that the
call adds with it. -/
def Describes (ν : String → Name) (nodes : Array Node) (c : NodeCall) (id : NodeId) : Prop :=
  ∃ inner : NodeId,
    (∀ kind, c.inner? ν = some kind → inner.index.toNat + 1 = id.index.toNat ∧ kindAt nodes inner = some kind) ∧
      kindAt nodes id = some (c.outer ν inner)

theorem Describes.mono (h : c.Describes ν nodes id) (hkeeps : Keeps nodes nodes') : c.Describes ν nodes' id := by
  obtain ⟨inner, hinner, houter⟩ := h
  exact ⟨inner, fun kind hkind => ⟨(hinner kind hkind).1, hkeeps _ _ (hinner kind hkind).2⟩, hkeeps _ _ houter⟩

/-- The function that a call is given a declaration of, the declaration being given as it is. -/
def declared? : NodeCall → Option NodeId
  | alloc (.functionDeclaration _ function) | allocAt (.functionDeclaration _ function) _ => some function
  | _ => none

theorem mem_ids_of_inner (h : c.inner? ν = some kind) (hchild : child ∈ kind.children) : child ∈ c.ids := by
  cases c with
  | callNamed s args => cases h; cases hchild
  | functionDeclaration s params body => cases h; exact hchild
  | methodCall target method args =>
    cases h
    exact List.mem_singleton.mp hchild ▸ List.mem_cons_self
  | _ => cases h

theorem mem_ids_of_outer (hchild : child ∈ (c.outer ν inner).children) :
    child ∈ c.ids ∨ child = inner ∧ (c.inner? ν).isSome = true := by
  cases c with
  | callNamed s args =>
    obtain rfl | hchild := List.mem_cons.mp hchild
    · exact .inr ⟨rfl, rfl⟩
    · exact .inl hchild
  | methodCall target method args =>
    obtain rfl | hchild := List.mem_cons.mp hchild
    · exact .inr ⟨rfl, rfl⟩
    · exact .inl (List.mem_cons_of_mem _ hchild)
  | functionDeclaration s params body => exact .inr ⟨List.mem_singleton.mp hchild, rfl⟩
  | object properties =>
    have hchild : child ∈ List.map Prod.snd (List.map (fun property => (ν property.1, property.2)) properties) := hchild
    obtain ⟨property, hproperty, rfl⟩ := List.mem_map.mp hchild
    obtain ⟨pair, hpair, rfl⟩ := List.mem_map.mp hproperty
    exact .inl (List.mem_map_of_mem hpair)
  | _ => exact .inl hchild

/-- A declaration of a function is given as it is, or is added with its function in front. -/
theorem declares_of_outer {name : Name} {function : NodeId} (h : c.outer ν inner = .functionDeclaration name function) :
    c.declared? = some function ∨
      function = inner ∧ ∃ name params body, c.inner? ν = some (.function name params body) := by
  cases c with
  | alloc kind =>
    cases h
    exact .inl rfl
  | allocAt kind span =>
    cases h
    exact .inl rfl
  | functionDeclaration s params body =>
    cases h
    exact .inr ⟨rfl, _, _, _, rfl⟩
  | _ => cases h

theorem ne_functionDeclaration_of_inner (h : c.inner? ν = some kind) (name : Name) (function : NodeId) :
    kind ≠ .functionDeclaration name function := by
  rintro rfl
  cases c <;> cases h

theorem begun_cases (c : NodeCall) (ν : String → Name) (b : TreeBuilder) :
    (c.inner? ν = none ∧ c.begun ν b = b.naming c.texts) ∨
      ∃ kind, c.inner? ν = some kind ∧ c.begun ν b = (b.naming c.texts).add kind (Span.synthetic b.nextId.index) := by
  unfold begun
  cases c.inner? ν with
  | none => exact .inl ⟨rfl, rfl⟩
  | some kind => exact .inr ⟨kind, rfl, rfl⟩

theorem keeps_begun : Keeps b.nodes (c.begun ν b).nodes := by
  obtain ⟨-, heq⟩ | ⟨kind, -, heq⟩ := begun_cases c ν b
  · rw [heq]
    exact fun _ _ h => h
  · rw [heq]
    exact keeps_add (b := b.naming c.texts)

theorem size_le_size_begun : b.nodes.size ≤ (c.begun ν b).nodes.size := by
  obtain ⟨-, heq⟩ | ⟨kind, -, heq⟩ := begun_cases c ν b
  · rw [heq]
    exact Nat.le_refl _
  · rw [heq]
    exact Nat.le_trans (Nat.le_succ _) (Nat.le_of_eq (Array.size_push _).symm)

theorem names_begun : (c.begun ν b).names = b.names.withTexts c.texts := by
  obtain ⟨-, heq⟩ | ⟨kind, -, heq⟩ := begun_cases c ν b <;> rw [heq] <;> rfl

/-- The node in front of the answer stands at the first new place. -/
theorem begun_inner (hsize : b.nodes.size < 4294967296) (h : c.inner? ν = some kind) :
    (c.begun ν b).nodes.size = b.nodes.size + 1 ∧ kindAt (c.begun ν b).nodes b.nextId = some kind := by
  obtain ⟨hnone, -⟩ | ⟨kind', hsome, heq⟩ := begun_cases c ν b
  · rw [hnone] at h
    cases h
  · rw [hsome] at h
    cases h
    rw [heq]
    exact ⟨Array.size_push _, kindAt_add (index_nextId hsize)⟩

def after (c : NodeCall) (ν : String → Name) (b : TreeBuilder) : TreeBuilder :=
  (c.begun ν b).add (c.outer ν b.nextId) (c.given?.getD (Span.synthetic (c.begun ν b).nextId.index))

theorem keeps_after : Keeps b.nodes (c.after ν b).nodes :=
  keeps_begun.trans keeps_add

theorem size_after : (c.after ν b).nodes.size = (c.begun ν b).nodes.size + 1 :=
  Array.size_push _

/-- The answer is what the call describes. -/
theorem describes_after (hsize : (c.begun ν b).nodes.size < 4294967296) :
    c.Describes ν (c.after ν b).nodes (c.begun ν b).nextId := by
  have hplace := index_nextId hsize
  have hb : b.nodes.size < 4294967296 := Nat.lt_of_le_of_lt size_le_size_begun hsize
  refine ⟨b.nextId, fun kind hkind => ?_, kindAt_add hplace⟩
  obtain ⟨hbegun, hinner⟩ := begun_inner hb hkind
  exact ⟨by rw [hplace, index_nextId hb, hbegun], keeps_add _ _ hinner⟩

/-- A call that is given ids of the builder leaves its nodes sound. -/
theorem sound_after {given : NodeId → Prop} (h : Sound b.nodes given) (hsize : b.nodes.size < 4294967296)
    (hids : ∀ id ∈ c.ids, id.index.toNat < b.nodes.size)
    (hdeclared : ∀ function, c.declared? = some function → given function) :
    Sound (c.after ν b).nodes given := by
  have hbegun : Sound (c.begun ν b).nodes given := by
    obtain ⟨-, heq⟩ | ⟨kind, hkind, heq⟩ := begun_cases c ν b
    · rw [heq]
      exact h
    · rw [heq]
      refine Sound.add (b := b.naming c.texts) h (fun child hchild => hids child (mem_ids_of_inner hkind hchild)) ?_
      exact fun name function hdeclared => absurd hdeclared (ne_functionDeclaration_of_inner hkind name function)
  refine hbegun.add (fun child hchild => ?_) fun name function houter => ?_
  · obtain hid | ⟨rfl, hsome⟩ := mem_ids_of_outer hchild
    · exact Nat.lt_of_lt_of_le (hids child hid) size_le_size_begun
    · obtain ⟨kind, hkind⟩ := Option.isSome_iff_exists.mp hsome
      rw [index_nextId hsize, (begun_inner hsize hkind).1]
      exact Nat.lt_succ_self _
  · obtain hgiven | ⟨rfl, name, params, body, hkind⟩ := declares_of_outer houter
    · exact .inr (hdeclared function hgiven)
    · exact .inl (isFunction_iff.mpr ⟨name, params, body, (begun_inner hsize hkind).2⟩)

end NodeCall

end ExplicitControl
