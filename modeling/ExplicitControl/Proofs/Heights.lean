import ExplicitControl.Proofs.Exchanges
import ExplicitControl.Proofs.Faithful

/-!
# The height of the stash during a call

While a call is going on, the values beneath its own stay as they are, and the number of its own values is
known exactly from the work pending in front of the end of the call: every item takes some values and leaves
some, and in the end one is left.  A jump drops work between two places at which the numbers are the same.  So
a call that completes leaves exactly one value, on the stash that it has found.
-/

namespace ExplicitControl

/-! ## 1. Exact heights -/

namespace Item

def input : Item → Nat
  | .node _ => 0
  | .instr i => i.input

def output : Item → Nat
  | .node _ => 1
  | .instr i => i.output

/-- A jump may stop behind the item. -/
def isStop : Item → Bool
  | .instr (.marker _) | .instr (.restore ..) => true
  | _ => false

/-- The nodes of a loop that are evaluated on every trip, but for its body. -/
def tests : Item → List NodeId
  | .instr (.whileTest test _ _) => [test]
  | .instr (.forTest test update _ _ _) => test.toList ++ update.toList
  | _ => []

end Item

namespace Agenda

def height : Agenda → Nat
  | [] => 1
  | item :: rest => item.input + (height rest - item.output)

/-- Wherever a jump from here may stop in this function, the work goes on with `n` values. -/
def Level (n : Nat) : Agenda → Prop
  | [] => True
  | item :: rest =>
    (item.isStop = true → height rest = n) ∧ (item.isMarker .call = false → Level n rest)

/-- Every item leaves no more values than the work behind it goes on with.  Work on statements may jump, so
what a jump leads to goes on with as many values as what comes next; the tests of its loops do not jump. -/
def Fits (t : Tree) : Agenda → Prop
  | [] => True
  | item :: rest =>
    (item.output ≤ height rest ∧ (item.isStatementWork t = true →
      Level (height rest) rest ∧ ∀ id ∈ item.tests, t.isStatement id = false)) ∧ Fits t rest

structure Expects (t : Tree) (a : Agenda) (n : Nat) : Prop where
  fits : a.Fits t
  height : a.height = n

variable {t : Tree} {n : Nat} {item : Item} {a rest : Agenda}

theorem Fits.suffix {b : Agenda} (ha : a.Fits t) (hb : b <:+ a) : b.Fits t := by
  obtain ⟨dropped, rfl⟩ := hb
  induction dropped with
  | nil => exact ha
  | cons item dropped ih => exact ih ha.2

/-- An item that no jump stops at is passed by. -/
theorem Level.pass (ha : Level n a) (hitem : item.isStop = false) : Level n (item :: a) :=
  ⟨fun hstop => (by rw [hitem] at hstop; cases hstop), fun _ => ha⟩

theorem Level.passes {items : Agenda} (ha : Level n a) (hitems : ∀ item ∈ items, item.isStop = false) :
    Level n (items ++ a) := by
  induction items with
  | nil => exact ha
  | cons item items ih =>
    rw [List.forall_mem_cons] at hitems
    exact (ih hitems.2).pass hitems.1

/-- An item that jumps may stop at goes on at the same height. -/
theorem Level.halt (ha : Level n a) (hheight : a.height = n) (item : Item) : Level n (item :: a) :=
  ⟨fun _ => hheight, fun _ => ha⟩

/-- A stop in the same function is where the level says. -/
theorem Level.stop {dropped : Agenda} (hlevel : Level n (dropped ++ item :: rest))
    (hdropped : ∀ i ∈ dropped, i.isMarker .call = false) (hitem : item.isStop = true) :
    rest.height = n ∧ (item.isMarker .call = false → Level n rest) := by
  induction dropped with
  | nil => exact ⟨hlevel.1 hitem, hlevel.2⟩
  | cons i dropped ih =>
    rw [List.forall_mem_cons] at hdropped
    exact ih (hlevel.2 hdropped.1) hdropped.2

/-! ## 2. Scheduled and dropped work -/

/-- Work on statements is put in front of work that is level, and other work in front of any. -/
theorem Expects.put (ha : a.Expects t (n + item.output))
    (hwork : item.isStatementWork t = true →
      Level (n + item.output) a ∧ ∀ id ∈ item.tests, t.isStatement id = false) :
    Expects t (item :: a) (n + item.input) := by
  refine ⟨⟨⟨?_, fun h => ?_⟩, ha.fits⟩, ?_⟩
  · rw [ha.height]
    exact Nat.le_add_left _ _
  · rw [ha.height]
    exact hwork h
  · rw [Agenda.height, ha.height, Nat.add_sub_cancel, Nat.add_comm]

theorem Expects.jump (ha : a.Expects t (n + item.output)) (hlevel : Level (n + item.output) a)
    (htests : item.tests = []) : Expects t (item :: a) (n + item.input) :=
  ha.put fun _ => ⟨hlevel, by rw [htests]; exact List.forall_mem_nil _⟩

theorem Expects.cons (ha : a.Expects t (n + item.output)) (hwork : item.isStatementWork t = false) :
    Expects t (item :: a) (n + item.input) :=
  ha.put fun h => by rw [hwork] at h; cases h

/-- What is behind an item when its turn comes. -/
theorem Expects.behind {m : Nat} (h : Expects t (item :: a) m) :
    ∃ n, m = n + item.input ∧ a.Expects t (n + item.output) ∧ (item.isStatementWork t = true →
      Level (n + item.output) a ∧ ∀ id ∈ item.tests, t.isStatement id = false) := by
  obtain ⟨⟨⟨hle, hwork⟩, hfits⟩, hheight⟩ := h
  have hbehind : a.height - item.output + item.output = a.height := Nat.sub_add_cancel hle
  refine ⟨a.height - item.output, ?_, ?_, ?_⟩
  · rw [← hheight, Agenda.height, Nat.add_comm]
  · rw [hbehind]
    exact ⟨hfits, rfl⟩
  · rw [hbehind]
    exact hwork

/-- Expressions provide the values that the work behind them takes. -/
theorem Expects.expressions {ids : List NodeId} (ha : a.Expects t (n + ids.length))
    (hids : ∀ id ∈ ids, t.isStatement id = false) : Expects t (ids.map Item.node ++ a) n := by
  induction ids generalizing n with
  | nil => exact ha
  | cons id ids ih =>
    rw [List.forall_mem_cons] at hids
    rw [List.length_cons, Nat.add_comm ids.length, ← Nat.add_assoc] at ha
    exact (ih ha hids.2).cons hids.1

theorem not_isStop_ofStatements (ids : List NodeId) : ∀ item ∈ ofStatements ids, item.isStop = false :=
  forall_mem_ofStatements (fun _ _ => rfl) rfl rfl

/-- A list of statements leaves one value. -/
theorem Expects.ofStatements (ids : List NodeId) (ha : a.Expects t (n + 1)) (hlevel : Level (n + 1) a) :
    Expects t (Agenda.ofStatements ids ++ a) n := by
  fun_induction Agenda.ofStatements ids with
  | case1 => exact ha.cons rfl
  | case2 id => exact ha.jump hlevel rfl
  | case3 id rest hne ih =>
    -- The value of the first statement is dropped, so the second begins at the same height.
    have hpop : Expects t (.instr .pop :: Agenda.ofStatements rest ++ a) (n + 1) := ih.cons rfl
    have hbehind : Level (n + 1) (.instr .pop :: Agenda.ofStatements rest ++ a) :=
      (hlevel.passes (not_isStop_ofStatements rest)).pass rfl
    exact hpop.jump hbehind rfl

/-- Behind the end of the function the work goes on with as many values. -/
theorem Expects.unwindCall (ha : a.Expects t n) (hlevel : Level n a)
    (hmarker : .instr (.marker .call) ∈ a) : (Agenda.unwindCall a).Expects t n := by
  refine ⟨ha.fits.suffix (unwindCall_suffix a), ?_⟩
  obtain ⟨dropped, hdropped, heq⟩ | ⟨hnone, -⟩ := unwindCall_cases a
  · rw [heq] at hlevel
    exact (hlevel.stop hdropped rfl).1
  · exact absurd (hnone _ hmarker) (by decide)

end Agenda

end ExplicitControl
