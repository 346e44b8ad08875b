import ExplicitControl.Proofs.Balance
import ExplicitControl.Proofs.Slots

/-!
# Declarations that are still to be carried out

Pending work is gone through from the front, keeping track of the environment in which each item will be carried
out: the current one at first, another one behind each end of a scope.  Behind a trip through a `for` with a
variable of its own the frame is a copy that has not been made yet, but no declaration comes there before the
scope ends.  So every declaration that is still to be carried out has its frame, to which it owes a value.
-/

namespace ExplicitControl

/-! ## 1. Where an item will be carried out -/

/-- What is known of the environment that is current when an item's turn comes. -/
inductive Place where
  /-- It is this one, and by then its variables of these names will have got their values. -/
  | known (env : Env) (names : List Name)
  /-- It is the frame of a trip through a loop, which has copies of these variables. -/
  | copied (vars : List Name)

namespace Item

/-- The declaration that the item carries out or evaluates, and the name declared. -/
def due (t : Tree) : Item → Option (NodeId × Name)
  | .instr (.declare name id) => some (id, name)
  | .node id => (t.declaration? id).map fun d => (d.1, d.2.1)
  | _ => none

def Discreet (t : Tree) (item : Item) : Prop :=
  ∀ i, item = .instr i → ∀ items ∈ i.offers, ∀ next ∈ items, next.due t = none

end Item

namespace Place

def after (t : Tree) : Place → Item → Place
  | _, .instr (.restore env _) => .known env []
  | .copied vars, _ => .copied vars
  -- A jump comes to its marker from anywhere in front.
  | .known env _, .instr (.marker _) => .known env []
  | .known env names, item =>
    if item.vars = [] then .known env ((item.due t).toList.map Prod.snd ++ names) else .copied item.vars

/-- The value that the item owes: the frame, the declaration and the name. -/
def owes (t : Tree) : Place → Item → List (Nat × NodeId × Name)
  | .known env _, item => (item.due t).toList.map fun d => (env.frame, d)
  | .copied _, _ => []

def Covers (scopes : Scopes) : Place → List Name → Prop
  | .known env names, vars => ∀ x ∈ vars, x ∈ names ∨ scopes.Holds env.frame x
  | .copied vars', vars => vars' = vars

/-- The item may be carried out at the place, in front of `rest`. -/
structure Allows (t : Tree) (scopes : Scopes) (place : Place) (item : Item) (rest : Agenda) : Prop where
  due : item.due t ≠ none → ∃ env names, place = .known env names
  vars : item.vars ≠ [] → place.Covers scopes item.vars
  /-- A trip is not left but to the end of the scope of the loop. -/
  marker : ∀ m vars, item = .instr (.marker m) → place = .copied vars → rest.endsScope = true
  discreet : item.Discreet t

/-- In the second place there is as much to rely on as in the first. -/
inductive Serves (scopes : Scopes) : Place → Place → Prop where
  | known {env : Env} {names names' : List Name} (h : ∀ x ∈ names, x ∈ names' ∨ scopes.Holds env.frame x) :
      Serves scopes (.known env names) (.known env names')
  | settled {env : Env} {vars names : List Name} (h : ∀ x ∈ vars, scopes.Holds env.frame x) :
      Serves scopes (.copied vars) (.known env names)
  | copied (vars : List Name) : Serves scopes (.copied vars) (.copied vars)

end Place

namespace Agenda

def Sound (t : Tree) (scopes : Scopes) : Place → Agenda → Prop
  | _, [] => True
  | place, item :: rest => place.Allows t scopes item rest ∧ Sound t scopes (place.after t item) rest

def owed (t : Tree) : Place → Agenda → List (Nat × NodeId × Name)
  | _, [] => []
  | place, item :: rest => place.owes t item ++ owed t (place.after t item) rest

end Agenda

variable {t : Tree} {scopes scopes' : Scopes} {place place' : Place} {env : Env} {names vars : List Name} {a : Agenda}

namespace Place

theorem after_restore (t : Tree) (place : Place) (env : Env) (closesCall : Bool) :
    place.after t (.instr (.restore env closesCall)) = .known env [] := by
  cases place <;> rfl

theorem after_of_vars {item : Item} (hvars : item.vars ≠ []) : after t (.known env names) item = .copied item.vars := by
  cases item with
  | node id => exact absurd rfl hvars
  | instr i => cases i <;> first | exact absurd rfl hvars | exact if_neg hvars

/-- An item that neither brings an environment back, nor is a marker, nor copies variables. -/
theorem after_plain {item : Item} (hrestore : item.isRestore = false) (hmarker : ∀ m, item ≠ .instr (.marker m))
    (hvars : item.vars = []) (env : Env) (names : List Name) :
    after t (.known env names) item = .known env ((item.due t).toList.map Prod.snd ++ names) := by
  cases item with
  | node id => rfl
  | instr i =>
    cases i with
    | restore env' closesCall => cases hrestore
    | marker m => exact absurd rfl (hmarker m)
    | freshTrip vars => exact if_pos hvars
    | forTest test update body vars id => exact if_pos hvars
    | _ => rfl

theorem after_copied {item : Item} (hrestore : item.isRestore = false) (t : Tree) (vars : List Name) :
    after t (.copied vars) item = .copied vars := by
  cases item with
  | node id => rfl
  | instr i =>
    cases i with
    | restore env' closesCall => cases hrestore
    | _ => rfl

theorem Serves.covers (h : place.Serves scopes' place') (hgrow : ∀ f x, scopes.Holds f x → scopes'.Holds f x)
    (hcovers : place.Covers scopes vars) : place'.Covers scopes' vars := by
  cases h with
  | known h => exact fun x hx => (hcovers x hx).elim (h x) fun hholds => .inr (hgrow _ _ hholds)
  | settled h =>
    obtain rfl : _ = vars := hcovers
    exact fun x hx => .inr (h x hx)
  | copied vars' => exact hcovers

theorem Serves.refl (scopes : Scopes) (place : Place) : place.Serves scopes place := by
  cases place with
  | known env names => exact .known fun _ h => .inl h
  | copied vars => exact .copied vars

end Place

namespace Agenda

open Place

/-- In front of the end of a scope, it does not matter where the item is. -/
theorem Sound.restart (h : Sound t scopes place a) (hends : a.endsScope = true) (place' : Place) :
    Sound t scopes place' a ∧ owed t place' a = owed t place a := by
  cases a with
  | nil => cases hends
  | cons item rest =>
    obtain ⟨env, closesCall, rfl⟩ := Item.isRestore_iff.mp hends
    obtain ⟨hallows, hrest⟩ := h
    rw [after_restore] at hrest
    refine ⟨⟨⟨fun h => absurd rfl h, fun h => absurd rfl h, fun m vars h => (by cases h), hallows.discreet⟩, ?_⟩, ?_⟩
    · rw [after_restore]
      exact hrest
    · unfold owed
      rw [after_restore, after_restore]
      cases place <;> cases place' <;> rfl

/-- Sound work is sound with more values, and in each place where there is as much to rely on.  The same is
owed. -/
theorem Sound.serves (h : Sound t scopes place a) (hgrow : ∀ f x, scopes.Holds f x → scopes'.Holds f x)
    (hserves : place.Serves scopes' place') : Sound t scopes' place' a ∧ owed t place' a = owed t place a := by
  induction a generalizing place place' with
  | nil => exact ⟨trivial, rfl⟩
  | cons item rest ih =>
    obtain ⟨hallows, hrest⟩ := h
    have hallows' : place'.Allows t scopes' item rest := by
      refine ⟨fun hdue => ?_, fun hvars => hserves.covers hgrow (hallows.vars hvars), fun m vars hitem hplace => ?_,
        hallows.discreet⟩
      · obtain ⟨env, names, rfl⟩ := hallows.due hdue
        cases hserves
        exact ⟨_, _, rfl⟩
      · subst hplace
        cases hserves
        exact hallows.marker m vars hitem rfl
    have howes : place'.owes t item = place.owes t item := by
      cases hserves with
      | known h => rfl
      | settled h =>
        have hnone : item.due t = none := by
          by_contra hdue
          obtain ⟨env, names, heq⟩ := hallows.due hdue
          cases heq
        rw [owes, hnone]
        rfl
      | copied vars => rfl
    suffices hbehind : Sound t scopes' (place'.after t item) rest ∧
        owed t (place'.after t item) rest = owed t (place.after t item) rest from
      ⟨⟨hallows', hbehind.1⟩, by rw [owed, owed, howes, hbehind.2]⟩
    by_cases hrestore : item.isRestore = true
    · obtain ⟨env, closesCall, rfl⟩ := Item.isRestore_iff.mp hrestore
      rw [after_restore] at hrest
      rw [after_restore, after_restore]
      exact ih hrest (.refl _ _)
    rw [Bool.not_eq_true] at hrestore
    by_cases hmarker : ∃ m, item = .instr (.marker m)
    · obtain ⟨m, rfl⟩ := hmarker
      cases hserves with
      | known h => exact ih hrest (.refl _ _)
      | @settled env vars names h =>
        -- The end of the scope follows.
        obtain ⟨hsound, howed⟩ := hrest.restart (hallows.marker m vars rfl rfl) (.known env [])
        exact ⟨(ih hsound (.refl _ _)).1, howed⟩
      | copied vars => exact ih hrest (.refl _ _)
    rw [not_exists] at hmarker
    cases hserves with
    | @known env names names' h =>
      by_cases hvars : item.vars = []
      · rw [after_plain hrestore hmarker hvars] at hrest ⊢
        rw [after_plain hrestore hmarker hvars]
        refine ih hrest (.known fun x hx => ?_)
        obtain hx | hx := List.mem_append.mp hx
        · exact .inl (List.mem_append_left _ hx)
        · exact (h x hx).imp_left (List.mem_append_right _)
      · rw [after_of_vars hvars] at hrest ⊢
        rw [after_of_vars hvars]
        exact ih hrest (.copied _)
    | @settled env vars names h =>
      rw [after_copied hrestore] at hrest
      by_cases hvars : item.vars = []
      · rw [after_plain hrestore hmarker hvars, after_copied hrestore]
        exact ih hrest (.settled h)
      · have hsame : vars = item.vars := hallows.vars hvars
        rw [after_of_vars hvars, after_copied hrestore, hsame]
        exact ih (hsame ▸ hrest) (.copied _)
    | copied vars =>
      rw [after_copied hrestore] at hrest ⊢
      exact ih hrest (.copied _)

end Agenda

/-! ## 2. Work put in front -/

/-- The item neither ends a scope nor makes copies, and nor does what it puts in front evaluate a declaration. -/
structure Item.Orderly (t : Tree) (item : Item) : Prop where
  restore : item.isRestore = false
  vars : item.vars = []
  discreet : item.Discreet t

namespace Agenda

open Place

variable {items : List Item}

def dues (t : Tree) (frame : Nat) (items : List Item) : List (Nat × NodeId × Name) :=
  (items.filterMap (Item.due t)).map fun d => (frame, d)

theorem Sound.put (hitems : ∀ item ∈ items, item.Orderly t) (h : Sound t scopes (.known env []) a)
    (names : List Name) :
    Sound t scopes (.known env names) (items ++ a) ∧
      owed t (.known env names) (items ++ a) = dues t env.frame items ++ owed t (.known env []) a := by
  induction items generalizing names with
  | nil => exact h.serves (fun _ _ h => h) (.known fun x hx => absurd hx List.not_mem_nil)
  | cons item items ih =>
    rw [List.forall_mem_cons] at hitems
    obtain ⟨names', hafter⟩ : ∃ names', after t (.known env names) item = .known env names' := by
      by_cases hmarker : ∃ m, item = .instr (.marker m)
      · obtain ⟨m, rfl⟩ := hmarker
        exact ⟨[], rfl⟩
      · exact ⟨_, after_plain hitems.1.restore (not_exists.mp hmarker) hitems.1.vars env names⟩
    obtain ⟨hsound, howed⟩ := ih hitems.2 names'
    have hallows : Allows t scopes (.known env names) item (items ++ a) :=
      ⟨fun _ => ⟨_, _, rfl⟩, fun hvars => absurd hitems.1.vars hvars, fun m vars _ hplace => (by cases hplace),
        hitems.1.discreet⟩
    refine ⟨⟨hallows, by rw [hafter]; exact hsound⟩, ?_⟩
    show owes t (.known env names) item ++ owed t (after t (.known env names) item) (items ++ a) = _
    rw [hafter, howed]
    unfold dues owes
    cases hdue : item.due t <;> simp [hdue]

/-- Nothing is owed by items that evaluate no declaration. -/
theorem dues_eq_nil {frame : Nat} (h : ∀ item ∈ items, item.due t = none) : dues t frame items = [] := by
  rw [dues, List.filterMap_eq_nil_iff.mpr h]
  rfl

/-- In a copied frame too, such items may be put in front if they are no markers. -/
theorem Sound.keep (hitems : ∀ item ∈ items, item.Orderly t ∧ item.due t = none ∧ ∀ m, item ≠ .instr (.marker m))
    (h : Sound t scopes (.copied vars) a) :
    Sound t scopes (.copied vars) (items ++ a) ∧
      owed t (.copied vars) (items ++ a) = owed t (.copied vars) a := by
  induction items with
  | nil => exact ⟨h, rfl⟩
  | cons item items ih =>
    rw [List.forall_mem_cons] at hitems
    obtain ⟨⟨hrestore, hvars, hdiscreet⟩, hdue, hmarker⟩ := hitems.1
    obtain ⟨hsound, howed⟩ := ih hitems.2
    have hafter := after_copied hrestore t vars
    refine ⟨⟨⟨fun h => absurd hdue h, fun h => absurd hvars h, fun m _ hitem => absurd hitem (hmarker m),
      hdiscreet⟩, by rw [hafter]; exact hsound⟩, ?_⟩
    show [] ++ owed t (after t (.copied vars) item) (items ++ a) = _
    rw [hafter, howed, List.nil_append]

/-! ## 3. Work dropped -/

theorem Sound.suffix_marker {dropped : Agenda} {m : Marker} (hdropped : ∀ item ∈ dropped, item.isRestore = false)
    (h : Sound t scopes (.known env names) (dropped ++ .instr (.marker m) :: a)) :
    Sound t scopes (.known env []) a ∧
      owed t (.known env []) a <:+ owed t (.known env names) (dropped ++ .instr (.marker m) :: a) := by
  -- On the items: in front of the marker the frame is the current one, or a copy; then the end of the scope follows.
  suffices hall : ∀ place : Place, (∃ names, place = .known env names) ∨ (∃ vars, place = .copied vars) →
      Sound t scopes place (dropped ++ .instr (.marker m) :: a) → Sound t scopes (.known env []) a ∧
        owed t (.known env []) a <:+ owed t place (dropped ++ .instr (.marker m) :: a) from
    hall _ (.inl ⟨names, rfl⟩) h
  clear h
  induction dropped with
  | nil =>
    rintro place (⟨names, rfl⟩ | ⟨vars, rfl⟩) ⟨hallows, hrest⟩
    · exact ⟨hrest, List.suffix_append _ _⟩
    · have hrest : Sound t scopes (.copied vars) a := hrest
      obtain ⟨hsound, howed⟩ := hrest.restart (hallows.marker m vars rfl rfl) (.known env [])
      refine ⟨hsound, ?_⟩
      rw [howed]
      exact List.suffix_append _ _
  | cons item dropped ih =>
    rw [List.forall_mem_cons] at hdropped
    rintro place hplace ⟨hallows, hrest⟩
    have hafter : (∃ names, place.after t item = .known env names) ∨ ∃ vars, place.after t item = .copied vars := by
      obtain ⟨names, rfl⟩ | ⟨vars, rfl⟩ := hplace
      · by_cases hmarker : ∃ m, item = .instr (.marker m)
        · obtain ⟨m, rfl⟩ := hmarker
          exact .inl ⟨[], rfl⟩
        · by_cases hvars : item.vars = []
          · exact .inl ⟨_, after_plain hdropped.1 (not_exists.mp hmarker) hvars env names⟩
          · exact .inr ⟨_, after_of_vars hvars⟩
      · exact .inr ⟨vars, after_copied hdropped.1 t vars⟩
    obtain ⟨hsound, hsuffix⟩ := ih hdropped.2 _ hafter hrest
    exact ⟨hsound, hsuffix.trans (List.suffix_append _ _)⟩

/-- Behind work that is dropped, and the end of a scope. -/
theorem Sound.suffix_restore {dropped : Agenda} {closesCall : Bool}
    (h : Sound t scopes place (dropped ++ .instr (.restore env closesCall) :: a)) :
    Sound t scopes (.known env []) a ∧
      owed t (.known env []) a <:+ owed t place (dropped ++ .instr (.restore env closesCall) :: a) := by
  induction dropped generalizing place with
  | nil =>
    obtain ⟨-, hrest⟩ := h
    rw [after_restore] at hrest
    refine ⟨hrest, ?_⟩
    rw [List.nil_append, owed, after_restore]
    exact List.suffix_append _ _
  | cons item dropped ih =>
    obtain ⟨hsound, hsuffix⟩ := ih h.2
    exact ⟨hsound, hsuffix.trans (List.suffix_append _ _)⟩

theorem Sound.unwindCall (htidy : a.Tidy) (h : Sound t scopes place a) (place' : Place) :
    Sound t scopes place' (unwindCall a) ∧ owed t place' (unwindCall a) <:+ owed t place a := by
  obtain ⟨dropped, -, heq⟩ | ⟨-, hnil⟩ := unwindCall_cases a
  · -- Behind the marker the environment of the caller comes back.
    have hmarker : .instr (.marker .call) ∈ a := by
      rw [heq]
      exact List.mem_append_right _ List.mem_cons_self
    obtain ⟨env, rest, hends⟩ := endsCall_iff.mp (htidy.endsCall_unwindCall hmarker)
    rw [hends] at heq ⊢
    rw [List.append_cons] at heq
    rw [heq] at h ⊢
    obtain ⟨hsound, hsuffix⟩ := h.suffix_restore
    refine ⟨⟨⟨fun h => absurd rfl h, fun h => absurd rfl h, fun m vars h => (by cases h), ?_⟩, ?_⟩, ?_⟩
    · rintro i hi items hitems next hnext
      cases hi
      rw [List.mem_singleton.mp hitems] at hnext
      exact absurd hnext List.not_mem_nil
    · rw [after_restore]
      exact hsound
    · rw [owed, after_restore]
      cases place' <;> exact hsuffix
  · rw [hnil]
    exact ⟨trivial, List.nil_suffix⟩

end Agenda

end ExplicitControl
