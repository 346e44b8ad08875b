import ExplicitControl.Printer

/-!
# What is drawn of a value

The text of a value is written call by call: a container is opened, each of its members is written by a call of its
own, and the container is closed.  A drawing is the tree of these calls, with what each of them has found: a scalar, a
container with its members, or one of the reasons to leave a container's contents out.  The text, the number of values
and the depth of the calls are read off the tree, and so is which containers were looked into.
-/

namespace ExplicitControl

/-! ## 1. Containers and their members -/

structure Layout where
  opening : String
  separator : String
  /-- What stands for members that are left out. -/
  rest : String
  closing : String
  empty : String
  /-- A container whose contents are left out. -/
  elided : String

def Layout.square : Layout := ⟨"[", ", ", "...", "]", "[]", "[...]"⟩

def Layout.curly : Layout := ⟨"\x7b", ",", " ...", " \x7d", "\x7b\x7d", "\x7b...\x7d"⟩

namespace Value

def reference? : Value → Option (Layout × CellId)
  | array c => some (.square, c)
  | object c => some (.curly, c)
  | _ => none

def scalarText : Value → String
  | undefined => "undefined"
  | null => "null"
  | bool b => if b then "true" else "false"
  | number x => Decimal.numberText x
  | string s => Text.quote s
  | array _ | object _ => ""
  | closure _ f => "<" ++ (if f.name.isSome then "function" else "lambda") ++ "/" ++ toString f.arity ++ ">"
  | host _ f => "<builtin " ++ f.name ++ ">"
  | callCc => "<builtin call_cc>"
  | continuation _ => "<continuation>"

def members? (read : CellId → Option Cell) : Value → Option (List (String × Value))
  | array c =>
    match read c with
    | some (.array vs) => some (vs.toList.map fun v => ("", v))
    | _ => none
  | object c =>
    match read c with
    | some (.object o) => some (o.entries.map fun entry => (" " ++ Text.quote entry.1 ++ ": ", entry.2))
    | _ => none
  | _ => none

variable {read : CellId → Option Cell} {c : CellId} {ms : List (String × Value)}

theorem members?_array : (array c).members? read = some ms ↔
    ∃ vs, read c = some (.array vs) ∧ ms = vs.toList.map fun v => ("", v) := by
  simp only [members?]
  rcases read c with _ | _ | _ <;> simp [eq_comm]

theorem members?_object : (object c).members? read = some ms ↔
    ∃ o, read c = some (.object o) ∧
      ms = o.entries.map fun entry => (" " ++ Text.quote entry.1 ++ ": ", entry.2) := by
  simp only [members?]
  rcases read c with _ | _ | _ <;> simp [eq_comm]

/-- A container with members has been read. -/
theorem exists_of_members? {v : Value} {l : Layout} (hv : v.reference? = some (l, c))
    (hms : v.members? read = some ms) : ∃ cell, read c = some cell := by
  cases v with
  | array c' =>
    cases hv
    obtain ⟨vs, hread, -⟩ := members?_array.mp hms
    exact ⟨_, hread⟩
  | object c' =>
    cases hv
    obtain ⟨o, hread, -⟩ := members?_object.mp hms
    exact ⟨_, hread⟩
  | _ => cases hv

end Value

/-! ## 2. Drawings -/

mutual

/-- A call that writes a value, with all calls that it makes. -/
inductive Drawing where
  | scalar (text : String)
  | spent
  /-- A container too deep for its contents to be written. -/
  | elided (l : Layout)
  | circular (c : CellId)
  /-- A container that may not be read. -/
  | blocked (c : CellId)
  | container (l : Layout) (c : CellId) (members : Drawings)

inductive Drawings where
  | done
  | rest
  | member (label : String) (d : Drawing) (more : Drawings)

end

mutual

def Drawing.text : Drawing → String
  | .scalar s => s
  | .spent => "..."
  | .elided l => l.elided
  | .circular _ => "<circular>"
  | .blocked _ => ""
  | .container l _ .done => l.empty
  | .container l _ ds => l.opening ++ ds.text l true ++ l.closing

def Drawings.text (l : Layout) (first : Bool) : Drawings → String
  | .done => ""
  | .rest => (if first then "" else l.separator) ++ l.rest
  | .member label d more => (if first then "" else l.separator) ++ label ++ d.text ++ more.text l false

end

mutual

/-- The number of values written: scalars, containers, and the marks that stand for one. -/
def Drawing.values : Drawing → Nat
  | .spent => 0
  | .container _ _ ds => ds.values + 1
  | _ => 1

def Drawings.values : Drawings → Nat
  | .done | .rest => 0
  | .member _ d more => d.values + more.values

end

mutual

/-- How many calls there are at most, one inside the other. -/
def Drawing.height : Drawing → Nat
  | .container _ _ ds => ds.height + 1
  | _ => 1

def Drawings.height : Drawings → Nat
  | .done | .rest => 0
  | .member _ d more => max d.height more.height

end

mutual

/-- No container is entered inside itself, and only those are said to be. `path` are the containers around. -/
def Drawing.EntersOnce (path : List CellId) : Drawing → Prop
  | .circular c => c ∈ path
  | .container _ c ds => c ∉ path ∧ ds.EntersOnce (c :: path)
  | _ => True

def Drawings.EntersOnce (path : List CellId) : Drawings → Prop
  | .done | .rest => True
  | .member _ d more => d.EntersOnce path ∧ more.EntersOnce path

end

mutual

def Drawing.cells : Drawing → List CellId
  | .blocked c => [c]
  | .container _ c ds => c :: ds.cells
  | _ => []

def Drawings.cells : Drawings → List CellId
  | .done | .rest => []
  | .member _ d more => d.cells ++ more.cells

end

mutual

def Drawing.isBlocked : Drawing → Bool
  | .blocked _ => true
  | .container _ _ ds => ds.isBlocked
  | _ => false

def Drawings.isBlocked : Drawings → Bool
  | .done | .rest => false
  | .member _ d more => d.isBlocked || more.isBlocked

end

/-! ## 3. Drawing a value -/

def drawMembers (draw : Value → Nat → Drawing × Nat) : List (String × Value) → Nat → Drawings × Nat
  | [], n => (.done, n)
  | (label, v) :: ms, n =>
    if n = 0 then (.rest, 0)
    else
      let (d, n) := draw v n
      let (more, n) := drawMembers draw ms n
      (.member label d more, n)

/-- Draw a value inside the containers `opened`, when `n` more values may be written, and say how many may be
afterwards. -/
def draw (read : CellId → Option Cell) (depth : Nat) (v : Value) (opened : List CellId) (n : Nat) : Drawing × Nat :=
  match n with
  | 0 => (.spent, 0)
  | n + 1 =>
    match v.reference? with
    | none => (.scalar v.scalarText, n)
    | some (l, c) =>
      match depth with
      | 0 => (.elided l, n)
      | depth + 1 =>
        if c ∈ opened then (.circular c, n)
        else
          match v.members? read with
          | none => (.blocked c, n)
          | some ms =>
            let (ds, n) := drawMembers (fun v n => draw read depth v (c :: opened) n) ms n
            (.container l c ds, n)

section

variable {read : CellId → Option Cell} {depth n : Nat} {v : Value} {opened : List CellId} {l : Layout} {c : CellId}

theorem draw_spent : draw read depth v opened 0 = (.spent, 0) := by
  cases depth <;> rfl

theorem draw_scalar (hv : v.reference? = none) :
    draw read depth v opened (n + 1) = (.scalar v.scalarText, n) := by
  cases depth <;> simp only [draw, hv]

theorem draw_elided (hv : v.reference? = some (l, c)) : draw read 0 v opened (n + 1) = (.elided l, n) := by
  simp only [draw, hv]

theorem draw_circular (hv : v.reference? = some (l, c)) (hc : c ∈ opened) :
    draw read (depth + 1) v opened (n + 1) = (.circular c, n) := by
  simp only [draw, hv, hc, if_true]

theorem draw_blocked (hv : v.reference? = some (l, c)) (hc : c ∉ opened) (hms : v.members? read = none) :
    draw read (depth + 1) v opened (n + 1) = (.blocked c, n) := by
  simp only [draw, hv, hc, hms, if_false]

theorem draw_container {ms : List (String × Value)} (hv : v.reference? = some (l, c)) (hc : c ∉ opened)
    (hms : v.members? read = some ms) :
    draw read (depth + 1) v opened (n + 1) =
      (.container l c (drawMembers (fun w k => draw read depth w (c :: opened) k) ms n).1,
        (drawMembers (fun w k => draw read depth w (c :: opened) k) ms n).2) := by
  simp only [draw, hv, hc, hms, if_false]

end

/-- What holds of all ways in which a call may end holds of every call, if it holds of a container as soon as it holds
of all calls inside. -/
theorem draw_induct (read : CellId → Option Cell) {motive : Nat → Value → List CellId → Nat → Drawing × Nat → Prop}
    (spent : ∀ depth v opened, motive depth v opened 0 (.spent, 0))
    (scalar : ∀ depth v opened n, v.reference? = none → motive depth v opened (n + 1) (.scalar v.scalarText, n))
    (elided : ∀ v opened n l c, v.reference? = some (l, c) → motive 0 v opened (n + 1) (.elided l, n))
    (circular : ∀ depth v opened n l c, v.reference? = some (l, c) → c ∈ opened →
      motive (depth + 1) v opened (n + 1) (.circular c, n))
    (blocked : ∀ depth v opened n l c, v.reference? = some (l, c) → c ∉ opened → v.members? read = none →
      motive (depth + 1) v opened (n + 1) (.blocked c, n))
    (container : ∀ depth v opened n l c ms, v.reference? = some (l, c) → c ∉ opened → v.members? read = some ms →
      (∀ w k, motive depth w (c :: opened) k (draw read depth w (c :: opened) k)) →
      ∀ r, r = drawMembers (fun w k => draw read depth w (c :: opened) k) ms n →
        motive (depth + 1) v opened (n + 1) (.container l c r.1, r.2))
    (depth : Nat) (v : Value) (opened : List CellId) (n : Nat) :
    motive depth v opened n (draw read depth v opened n) := by
  induction depth generalizing v opened n with
  | zero =>
    cases n with
    | zero => exact draw_spent ▸ spent 0 v opened
    | succ n =>
      cases hv : v.reference? with
      | none => exact draw_scalar hv ▸ scalar 0 v opened n hv
      | some reference => exact draw_elided hv ▸ elided v opened n _ _ hv
  | succ depth ih =>
    cases n with
    | zero => exact draw_spent ▸ spent (depth + 1) v opened
    | succ n =>
      cases hv : v.reference? with
      | none => exact draw_scalar hv ▸ scalar (depth + 1) v opened n hv
      | some reference =>
        by_cases hc : reference.2 ∈ opened
        · exact draw_circular hv hc ▸ circular depth v opened n _ _ hv hc
        cases hms : v.members? read with
        | none => exact draw_blocked hv hc hms ▸ blocked depth v opened n _ _ hv hc hms
        | some ms =>
          rw [draw_container hv hc hms]
          exact container depth v opened n _ _ ms hv hc hms (fun w k => ih w _ k) _ rfl

namespace Printer

variable {read : CellId → Option Cell}

/-! ## 4. What is written is what is drawn -/

def writeMembers (l : Layout) (write : Value → Printer → Printer) : Bool → List (String × Value) → Printer → Printer
  | _, [], p => p
  | first, (label, v) :: ms, p =>
    let p := if first then p else p.put l.separator
    if p.remaining = 0 then p.put l.rest else writeMembers l write false ms (write v (p.put label))

@[simp] theorem put_empty (p : Printer) : p.put "" = p := by
  rw [put, String.append_empty]

theorem elements_eq (write : Value → Printer → Printer) (first : Bool) (vs : List Value) (p : Printer) :
    elements write first vs p = writeMembers .square write first (vs.map fun v => ("", v)) p := by
  induction vs generalizing first p with
  | nil => rfl
  | cons v rest ih =>
    simp only [elements, List.map_cons, writeMembers, put_empty, ih]
    rfl

theorem properties_eq (write : Value → Printer → Printer) (first : Bool) (entries : List (String × Value))
    (p : Printer) :
    properties write first entries p =
      writeMembers .curly write first
        (entries.map fun entry => (" " ++ Text.quote entry.1 ++ ": ", entry.2)) p := by
  induction entries generalizing first p with
  | nil => rfl
  | cons entry rest ih =>
    simp only [properties, List.map_cons, writeMembers, ih]
    rfl

def after (p : Printer) (r : Drawing × Nat) : Printer :=
  ⟨p.out ++ r.1.text, p.opened, r.2, p.blocked || r.1.isBlocked⟩

def afterMembers (p : Printer) (l : Layout) (first : Bool) (r : Drawings × Nat) : Printer :=
  ⟨p.out ++ r.1.text l first, p.opened, r.2, p.blocked || r.1.isBlocked⟩

/-- Members are written as they are drawn, if each of them is. -/
theorem writeMembers_eq {write : Value → Printer → Printer} (draw : Value → Nat → Drawing × Nat)
    {opened : List CellId} (hwrite : ∀ v p, p.opened = opened → write v p = p.after (draw v p.remaining))
    (l : Layout) (first : Bool) (ms : List (String × Value)) (p : Printer) (hp : p.opened = opened) :
    writeMembers l write first ms p = p.afterMembers l first (drawMembers draw ms p.remaining) := by
  induction ms generalizing first p with
  | nil => simp [writeMembers, drawMembers, afterMembers, Drawings.text, Drawings.isBlocked]
  | cons m ms ih =>
    obtain ⟨label, v⟩ := m
    -- The separator adds to the text only.
    have separated : (if first then p else p.put l.separator) = p.put (if first then "" else l.separator) := by
      cases first
      · rfl
      · simp
    have written (s : String) : write v ((p.put s).put label) = ((p.put s).put label).after (draw v p.remaining) :=
      hwrite v ((p.put s).put label) hp
    simp only [writeMembers, separated]
    by_cases hn : p.remaining = 0
    · simp [hn, drawMembers, put, afterMembers, Drawings.text, Drawings.isBlocked, String.append_assoc]
    · rw [if_neg (show ¬(p.put _).remaining = 0 from hn), written, ih]
      case hp => exact hp
      simp [hn, drawMembers, put, after, afterMembers, Drawings.text, Drawings.isBlocked, String.append_assoc,
        Bool.or_assoc]

/-! ## 5. The ways in which a call ends -/

def writeContents (l : Layout) (write : Value → Printer → Printer) : List (String × Value) → Printer → Printer
  | [], p => p.put l.empty
  | ms, p => (writeMembers l write true ms (p.put l.opening)).put l.closing

def spend (p : Printer) : Printer :=
  { p with remaining := p.remaining - 1 }

section

variable {depth : Nat} {v : Value} {p : Printer} {l : Layout} {c : CellId}

theorem write_spent (hn : p.remaining = 0) : write read depth v p = p.put "..." := by
  unfold write
  rw [if_pos hn]

theorem write_scalar (hn : p.remaining ≠ 0) (hv : v.reference? = none) :
    write read depth v p = p.spend.put v.scalarText := by
  unfold write
  rw [if_neg hn]
  cases v with
  | array c => cases hv
  | object c => cases hv
  | _ => rfl

theorem write_elided (hn : p.remaining ≠ 0) (hv : v.reference? = some (l, c)) :
    write read 0 v p = p.spend.put l.elided := by
  unfold write
  rw [if_neg hn]
  cases v <;> cases hv <;> rfl

theorem write_circular (hn : p.remaining ≠ 0) (hv : v.reference? = some (l, c)) (hc : c ∈ p.opened) :
    write read (depth + 1) v p = p.spend.put "<circular>" := by
  have hc : p.opened.contains c = true := List.contains_iff_mem.mpr hc
  unfold write
  rw [if_neg hn]
  cases v <;> cases hv <;> exact if_pos hc

theorem write_blocked (hn : p.remaining ≠ 0) (hv : v.reference? = some (l, c)) (hc : c ∉ p.opened)
    (hms : v.members? read = none) : write read (depth + 1) v p = { p.spend with blocked := true } := by
  have hc' : ¬p.opened.contains c = true := mt List.contains_iff_mem.mp hc
  unfold write
  rw [if_neg hn]
  cases v with
  | array c =>
    cases hv
    refine (if_neg hc').trans ?_
    split
    next hread => rw [Value.members?, hread] at hms; cases hms
    next => rfl
  | object c =>
    cases hv
    refine (if_neg hc').trans ?_
    split
    next hread => rw [Value.members?, hread] at hms; cases hms
    next => rfl
  | _ => cases hv

theorem write_container {ms : List (String × Value)} (hn : p.remaining ≠ 0) (hv : v.reference? = some (l, c))
    (hc : c ∉ p.opened) (hms : v.members? read = some ms) :
    write read (depth + 1) v p = enclosed c p.spend (writeContents l (write read depth) ms) := by
  have hc' : ¬p.opened.contains c = true := mt List.contains_iff_mem.mp hc
  unfold write
  rw [if_neg hn]
  cases v with
  | array c =>
    cases hv
    obtain ⟨vs, hread, rfl⟩ := Value.members?_array.mp hms
    simp only [hc', hread, Bool.false_eq_true, if_false]
    refine congrArg (enclosed c p.spend) (funext fun q => ?_)
    rw [elements_eq]
    cases vs.toList with
    | nil => simp [writeContents, writeMembers, put, Layout.square, String.append_assoc]
    | cons v rest => rfl
  | object c =>
    cases hv
    obtain ⟨o, hread, rfl⟩ := Value.members?_object.mp hms
    simp only [hc', hread, Bool.false_eq_true, if_false]
    -- An object without properties is not opened at all.
    unfold Object.isEmpty
    cases o.entries with
    | nil => simp [enclosed, writeContents, put, Layout.curly, spend]
    | cons entry rest =>
      rw [List.isEmpty_cons, if_neg Bool.false_ne_true]
      refine congrArg (enclosed c p.spend) (funext fun q => ?_)
      rw [properties_eq]
      rfl
  | _ => cases hv

end

/-- Contents are written as they are drawn, if each member is. -/
theorem writeContents_eq {write : Value → Printer → Printer} (draw : Value → Nat → Drawing × Nat)
    {opened : List CellId} (hwrite : ∀ v p, p.opened = opened → write v p = p.after (draw v p.remaining))
    (l : Layout) (c : CellId) (ms : List (String × Value)) (p : Printer) (hp : p.opened = opened) :
    writeContents l write ms p =
      p.after (.container l c (drawMembers draw ms p.remaining).1, (drawMembers draw ms p.remaining).2) := by
  cases ms with
  | nil => simp [writeContents, drawMembers, put, after, Drawing.text, Drawing.isBlocked, Drawings.isBlocked]
  | cons m ms =>
    have hmembers := writeMembers_eq draw hwrite l true (m :: ms) (p.put l.opening) hp
    -- Either the first member is drawn, or it is already too much.
    have htext : ∀ r : Drawings × Nat, r = drawMembers draw (m :: ms) p.remaining →
        Drawing.text (.container l c r.1) = l.opening ++ r.1.text l true ++ l.closing := by
      rintro r rfl
      unfold drawMembers
      split <;> simp [Drawing.text]
    show (writeMembers l write true (m :: ms) (p.put l.opening)).put l.closing = _
    rw [hmembers]
    simp [put, after, afterMembers, htext _ rfl, Drawing.isBlocked, String.append_assoc]

/-- **What is written is what is drawn.**  Whatever has been written before, the containers around a value are what they
were before it. -/
theorem write_eq (read : CellId → Option Cell) (depth : Nat) (v : Value) (p : Printer) :
    write read depth v p = p.after (draw read depth v p.opened p.remaining) := by
  refine draw_induct read (motive := fun depth v opened n r =>
    ∀ out blocked, write read depth v ⟨out, opened, n, blocked⟩ = after ⟨out, opened, n, blocked⟩ r)
    ?spent ?scalar ?elided ?circular ?blocked ?container depth v p.opened p.remaining p.out p.blocked
  case spent =>
    intro depth v opened out blocked
    rw [write_spent rfl]
    simp [after, put, Drawing.text, Drawing.isBlocked]
  case scalar =>
    intro depth v opened n hv out blocked
    rw [write_scalar (Nat.succ_ne_zero n) hv]
    simp [after, put, spend, Drawing.text, Drawing.isBlocked]
  case elided =>
    intro v opened n l c hv out blocked
    rw [write_elided (Nat.succ_ne_zero n) hv]
    simp [after, put, spend, Drawing.text, Drawing.isBlocked]
  case circular =>
    intro depth v opened n l c hv hc out blocked
    rw [write_circular (Nat.succ_ne_zero n) hv hc]
    simp [after, put, spend, Drawing.text, Drawing.isBlocked]
  case blocked =>
    intro depth v opened n l c hv hc hms out blocked
    rw [write_blocked (Nat.succ_ne_zero n) hv hc hms]
    simp [after, spend, Drawing.text, Drawing.isBlocked]
  case container =>
    rintro depth v opened n l c ms hv hc hms ih r rfl out blocked
    -- The members are written inside the container, which is no longer open afterwards.
    have hcontents := writeContents_eq (fun w k => draw read depth w (c :: opened) k)
      (by rintro w ⟨out', _, k, blocked'⟩ rfl; exact ih w k out' blocked') l c ms ⟨out, c :: opened, n, blocked⟩ rfl
    rw [write_container (Nat.succ_ne_zero n) hv hc hms]
    simp [enclosed, spend, hcontents, after]

end Printer

/-! ## 6. Bounds -/

/-- What a call leads to that may write `n` values, inside the containers `opened` and at most `depth` levels further
down: each value is counted, the calls nest no deeper, and no container is entered inside itself. -/
structure Drawing.Fits (depth : Nat) (opened : List CellId) (n : Nat) (r : Drawing × Nat) : Prop where
  values : r.1.values + r.2 = n
  height : r.1.height ≤ depth + 1
  once : r.1.EntersOnce opened

structure Drawings.Fits (depth : Nat) (opened : List CellId) (n : Nat) (r : Drawings × Nat) : Prop where
  values : r.1.values + r.2 = n
  height : r.1.height ≤ depth + 1
  once : r.1.EntersOnce opened

theorem fits_drawMembers {draw : Value → Nat → Drawing × Nat} {depth : Nat} {opened : List CellId}
    (hdraw : ∀ v n, Drawing.Fits depth opened n (draw v n)) (ms : List (String × Value)) (n : Nat) :
    Drawings.Fits depth opened n (drawMembers draw ms n) := by
  induction ms generalizing n with
  | nil => exact ⟨Nat.zero_add n, Nat.zero_le _, trivial⟩
  | cons m ms ih =>
    by_cases hn : n = 0
    · rw [drawMembers, if_pos hn, hn]
      exact ⟨rfl, Nat.zero_le _, trivial⟩
    · rw [drawMembers, if_neg hn]
      have hfirst := hdraw m.2 n
      have hmore := ih (draw m.2 n).2
      refine ⟨?_, Nat.max_le.mpr ⟨hfirst.height, hmore.height⟩, hfirst.once, hmore.once⟩
      show (draw m.2 n).1.values + _ + _ = n
      rw [Nat.add_assoc, hmore.values, hfirst.values]

/-- Every call fits. -/
theorem fits_draw (read : CellId → Option Cell) (depth : Nat) (v : Value) (opened : List CellId) (n : Nat) :
    Drawing.Fits depth opened n (draw read depth v opened n) := by
  have single {depth n : Nat} {opened : List CellId} (d : Drawing) (hvalues : d.values = 1) (hheight : d.height = 1)
      (honce : d.EntersOnce opened) : Drawing.Fits depth opened (n + 1) (d, n) :=
    ⟨by rw [hvalues, Nat.add_comm], hheight ▸ Nat.le_add_left 1 depth, honce⟩
  refine draw_induct read (motive := fun depth _ opened n r => Drawing.Fits depth opened n r)
    ?spent ?scalar ?elided ?circular ?blocked ?container depth v opened n
  case spent => exact fun depth _ _ => ⟨rfl, Nat.le_add_left 1 depth, trivial⟩
  case scalar => exact fun _ _ _ _ _ => single _ rfl rfl trivial
  case elided => exact fun _ _ _ _ _ _ => single _ rfl rfl trivial
  case circular => exact fun _ _ _ _ _ _ _ hc => single _ rfl rfl hc
  case blocked => exact fun _ _ _ _ _ _ _ _ _ => single _ rfl rfl trivial
  case container =>
    rintro depth v opened n l c ms hv hc hms ih r rfl
    have hmembers := fits_drawMembers ih ms n
    refine ⟨?_, Nat.succ_le_succ hmembers.height, hc, hmembers.once⟩
    show _ + 1 + _ = n + 1
    rw [Nat.add_right_comm, hmembers.values]

/-! ## 7. The length of a text -/

mutual

def Drawing.widest : Drawing → Nat
  | .scalar s => s.length
  | .container _ _ ds => ds.widest
  | _ => 0

def Drawings.widest : Drawings → Nat
  | .done | .rest => 0
  | .member label d more => max label.length (max d.widest more.widest)

end

structure Layout.Short (l : Layout) : Prop where
  around : l.opening.length + l.closing.length ≤ 3
  separator : l.separator.length ≤ 2
  rest : l.rest.length ≤ 4
  empty : l.empty.length ≤ 2
  elided : l.elided.length ≤ 5

theorem Value.short_of_reference? {v : Value} {l : Layout} {c : CellId} (h : v.reference? = some (l, c)) : l.Short := by
  cases v with
  | array c => cases h; exact ⟨by decide, by decide, by decide, by decide, by decide⟩
  | object c => cases h; exact ⟨by decide, by decide, by decide, by decide, by decide⟩
  | _ => cases h

theorem length_container {l : Layout} (hl : l.Short) (c : CellId) (ds : Drawings) :
    (Drawing.container l c ds).text.length ≤ (ds.text l true).length + 3 := by
  have haround := hl.around
  have hempty := hl.empty
  cases ds <;> simp only [Drawing.text, String.length_append] <;> omega

/-- Each member comes with a separator and a label; its own text leaves room for them. -/
theorem length_drawMembers {k : Nat} (draw : Value → Nat → Drawing × Nat)
    (hdraw : ∀ v n, n ≠ 0 → (draw v n).1.widest ≤ k →
      (draw v n).1.text.length + (k + 2) ≤ (2 * k + 12) * (draw v n).1.values)
    {l : Layout} (hl : l.Short) (first : Bool) (ms : List (String × Value)) (n : Nat)
    (hk : (drawMembers draw ms n).1.widest ≤ k) :
    ((drawMembers draw ms n).1.text l first).length ≤ (2 * k + 12) * (drawMembers draw ms n).1.values + 6 := by
  have hseparator : (if first then "" else l.separator).length ≤ 2 := by
    cases first
    · exact hl.separator
    · exact Nat.zero_le 2
  induction ms generalizing first n with
  | nil => exact Nat.zero_le _
  | cons m ms ih =>
    by_cases hn : n = 0
    · rw [drawMembers, if_pos hn]
      have := hl.rest
      simp only [Drawings.text, Drawings.values, String.length_append]
      omega
    · rw [drawMembers, if_neg hn] at hk ⊢
      obtain ⟨hlabel, hwidest⟩ := Nat.max_le.mp hk
      obtain ⟨hd, hmore⟩ := Nat.max_le.mp hwidest
      have hfirst := hdraw m.2 n hn hd
      have hrest := ih false (draw m.2 n).2 hmore hl.separator
      simp only [Drawings.text, Drawings.values, String.length_append, Nat.mul_add]
      omega

/-- No text is longer than so many times its longest scalar or label as it has values. -/
theorem length_draw (read : CellId → Option Cell) {k : Nat} (depth : Nat) (v : Value) (opened : List CellId) (n : Nat)
    (hn : n ≠ 0) (hk : (draw read depth v opened n).1.widest ≤ k) :
    (draw read depth v opened n).1.text.length + (k + 2) ≤ (2 * k + 12) * (draw read depth v opened n).1.values := by
  revert hn hk
  refine draw_induct read (motive := fun _ _ _ n r => n ≠ 0 → r.1.widest ≤ k →
    r.1.text.length + (k + 2) ≤ (2 * k + 12) * r.1.values)
    ?spent ?scalar ?elided ?circular ?blocked ?container depth v opened n
  case spent => exact fun _ _ _ h _ => absurd rfl h
  case scalar =>
    intro _ v _ n _ _ (hk : v.scalarText.length ≤ k)
    show v.scalarText.length + _ ≤ (2 * k + 12) * 1
    omega
  case elided =>
    intro v _ n l _ hv _ _
    have := (Value.short_of_reference? hv).elided
    show l.elided.length + _ ≤ (2 * k + 12) * 1
    omega
  case circular =>
    intro _ _ _ n _ _ _ _ _ _
    have : "<circular>".length = 10 := by decide
    show "<circular>".length + _ ≤ (2 * k + 12) * 1
    omega
  case blocked =>
    intro _ _ _ n _ _ _ _ _ _ _
    show 0 + _ ≤ (2 * k + 12) * 1
    omega
  case container =>
    rintro depth v opened n l c ms hv hc hms ih r rfl - hk
    have hl := Value.short_of_reference? hv
    have hmembers := length_drawMembers (fun w k => draw read depth w (c :: opened) k) ih hl true ms n hk
    have hcontainer := length_container hl c (drawMembers (fun w k => draw read depth w (c :: opened) k) ms n).1
    show (Drawing.container l c _).text.length + _ ≤ (2 * k + 12) * (_ + 1)
    rw [Nat.mul_succ]
    omega

/-! ## 8. Texts of values -/

def Heap.drawing (h : Heap) (v : Value) : Drawing :=
  (draw h.cell? Printer.maxDepth v [] Printer.maxValues).1

theorem Heap.stringify_eq (h : Heap) (v : Value) : h.stringify v = (h.drawing v).text := by
  rw [stringify, Printer.write_eq]
  exact String.empty_append

/-- **Texts are bounded.**  Whatever a heap holds, and however its containers share and contain each other: the text of
a value is made by calls that nest at most one deeper than the limit, write no more values than the limit and enter no
container inside itself.  So no text is longer than so many times the longest scalar or key in it.  In the middle of a
text, where containers are open and some values have been written, a call keeps to what is left of the limits, and
it leaves those containers open that it has found open. -/
theorem Heap.texts_are_bounded (h : Heap) (v : Value) :
    h.stringify v = (h.drawing v).text ∧ (h.drawing v).height ≤ Printer.maxDepth + 1 ∧
      (h.drawing v).values ≤ Printer.maxValues ∧ (h.drawing v).EntersOnce [] ∧
      (h.stringify v).length ≤ (2 * (h.drawing v).widest + 12) * Printer.maxValues ∧
      ∀ depth w p, (Printer.write h.cell? depth w p).opened = p.opened ∧
        ∃ r, Printer.write h.cell? depth w p = p.after r ∧ Drawing.Fits depth p.opened p.remaining r := by
  have hfits := fits_draw h.cell? Printer.maxDepth v [] Printer.maxValues
  have hvalues : (h.drawing v).values ≤ Printer.maxValues := hfits.values ▸ Nat.le_add_right _ _
  refine ⟨h.stringify_eq v, hfits.height, hvalues, hfits.once, ?_, fun depth w p => ?_⟩
  · have hlength := length_draw h.cell? Printer.maxDepth v [] Printer.maxValues (by decide) (Nat.le_refl _)
    rw [h.stringify_eq]
    exact Nat.le_trans (Nat.le_of_add_right_le hlength) (Nat.mul_le_mul_left _ hvalues)
  · have hwrite := Printer.write_eq h.cell? depth w p
    exact ⟨by rw [hwrite]; rfl, _, hwrite, fits_draw h.cell? depth w p.opened p.remaining⟩

end ExplicitControl
