import ExplicitControl.Proofs.Ensures
import ExplicitControl.Proofs.Jumps

/-!
# How many values pending work asks of the stash

Every item takes some values off the stash and leaves some on it, so an agenda asks for a least height of the
stash.  `break`, `continue`, `return` and `reset` drop an arbitrary part of the agenda, and the height that
the dropped part would have left says nothing about the rest.  So the demand of an agenda has a second half:
its `floor`, which is high enough for the work behind every marker that a jump can lead to.
-/

namespace ExplicitControl

structure Demand where
  /-- The least height at which the work can be carried out. -/
  need : Nat
  /-- The least height at which one more value is enough for the work behind any marker. -/
  floor : Nat
deriving DecidableEq, Repr

/-- The least height at which one more value is enough, for the work itself and behind any marker.  It is
what a node asks for, since a node leaves one value or jumps with one. -/
def Demand.resume (d : Demand) : Nat :=
  max (d.need - 1) d.floor

def Instr.takes : Instr → Nat
  | .marker .call | .pop | .assign .. | .declare .. | .unary .. | .methodLookup (some _) _ => 1
  | .binary .. | .memberGet _ | .methodLookup none _ => 2
  | .memberSet _ => 3
  | .makeArray size _ => size
  | .makeObject keys _ => keys.length
  | _ => 0

def Instr.gives : Instr → Nat
  | .marker .call | .push _ | .assign .. | .declare .. | .unary .. | .binary .. | .memberGet _
  | .memberSet _ | .makeArray .. | .makeObject .. => 1
  | .methodLookup .. => 2
  | _ => 0

def Instr.isStraight : Instr → Bool
  | .reset | .breakLoop _ | .continueLoop _ | .logical .. | .branch .. | .whileTest .. | .forTest ..
  | .apply .. => false
  | _ => true

/-- The least height for an instruction in front of work with demand `d`.  Nodes that an instruction may
schedule count as one node; a loop also keeps the value of the trip before. -/
def Instr.need (d : Demand) : Instr → Nat
  -- The value to be returned is on the stash already; a jump brings a value of its own.
  | .reset => d.floor + 1
  | .breakLoop _ | .continueLoop _ => d.floor
  | .logical .. | .branch .. => d.resume + 1
  | .whileTest .. | .forTest .. => d.resume + 2
  -- Callee, arguments and receiver are taken, and then one value comes back.
  | .apply arity hasReceiver _ => d.resume + (arity + 1 + hasReceiver.toNat)
  | i => i.takes + (d.need - i.gives)

def Item.demand : Item → Demand → Demand
  | .node _, d => ⟨d.resume, d.floor⟩
  -- A jump comes to a marker with one value, so the floor takes in what the work behind needs.
  | .instr (.marker m), d => ⟨(Instr.marker m).need d, d.resume⟩
  | .instr i, d => ⟨i.need d, d.floor⟩

namespace Agenda

def demand (a : Agenda) : Demand :=
  a.foldr Item.demand ⟨0, 0⟩

@[simp] theorem demand_cons (item : Item) (a : Agenda) :
    demand (item :: a) = item.demand (demand a) := rfl

-- The look-up of a member takes two values, which the evaluation of object and key before it provides.
example (node : NodeId) :
    demand [.node node, .node node, .instr (.memberGet node)] = ⟨0, 0⟩ ∧
      demand [.instr (.memberGet node)] = ⟨2, 0⟩ := ⟨rfl, rfl⟩

/-! ## 1. Scheduled work -/

/-- Bringing an environment back asks for nothing. -/
theorem demand_restore (env : Env) (closesCall : Bool) (a : Agenda) :
    demand (.instr (.restore env closesCall) :: a) = demand a := by
  simp only [demand_cons, Item.demand, Instr.need, Instr.takes, Instr.gives, Nat.zero_add, Nat.sub_zero]

/-- Nodes in front of other work never raise its floor, and each provides one value of its need. -/
theorem demand_nodes (ids : List NodeId) (a : Agenda) :
    (demand (ids.map Item.node ++ a)).need ≤ max ((demand a).need - ids.length) (demand a).floor ∧
      (demand (ids.map Item.node ++ a)).floor = (demand a).floor := by
  induction ids with
  | nil => exact ⟨by simp only [List.map_nil, List.nil_append, List.length_nil]; omega, rfl⟩
  | cons id ids ih =>
    obtain ⟨hneed, hfloor⟩ := ih
    simp only [List.map_cons, List.cons_append, demand_cons, Item.demand, Demand.resume,
      List.length_cons, hfloor, and_true]
    omega

/-- A list of statements asks for no more than one node does. -/
theorem demand_ofStatements (ids : List NodeId) (a : Agenda) :
    (demand (ofStatements ids ++ a)).need ≤ (demand a).resume ∧
      (demand (ofStatements ids ++ a)).floor = (demand a).floor := by
  induction ids with
  | nil =>
    simp only [ofStatements, List.singleton_append, demand_cons, Item.demand, Instr.need, Instr.takes,
      Instr.gives, Demand.resume, and_true]
    omega
  | cons id rest ih =>
    -- Between two statements a `pop` takes what the first has left.
    cases rest with
    | nil => exact ⟨Nat.le_refl _, rfl⟩
    | cons next rest =>
      obtain ⟨hneed, hfloor⟩ := ih
      simp only [ofStatements, List.cons_append, demand_cons, Item.demand, Instr.need, Instr.takes,
        Instr.gives, Demand.resume] at hneed hfloor ⊢
      omega

/-! ## 2. Dropped work -/

theorem floor_le_append (dropped a : Agenda) :
    (demand a).floor ≤ (demand (dropped ++ a)).floor := by
  induction dropped with
  | nil => exact Nat.le_refl _
  | cons item dropped ih =>
    refine Nat.le_trans ih ?_
    rw [List.cons_append, demand_cons, Item.demand.eq_def]
    -- Only a marker has another floor than the work behind it, and a higher one.
    split
    · exact Nat.le_refl _
    · exact Nat.le_max_right _ _
    · exact Nat.le_refl _

/-- The work behind a marker, wherever that is, asks for no more than the floor and one value. -/
theorem demand_behind_marker (dropped : Agenda) (m : Marker) (rest : Agenda) :
    (demand rest).need ≤ (demand (dropped ++ .instr (.marker m) :: rest)).floor + 1 ∧
      (demand rest).floor ≤ (demand (dropped ++ .instr (.marker m) :: rest)).floor := by
  have h := floor_le_append dropped (.instr (.marker m) :: rest)
  simp only [demand_cons, Item.demand, Demand.resume] at h
  omega

theorem demand_unwindCall (a : Agenda) :
    (demand (unwindCall a)).need ≤ (demand a).floor + 1 ∧
      (demand (unwindCall a)).floor ≤ (demand a).floor := by
  obtain ⟨dropped, -, ha⟩ | ⟨-, hnil⟩ := unwindCall_cases a
  · have := demand_behind_marker dropped .call (unwindCall a)
    rwa [← ha] at this
  · rw [hnil]
    exact ⟨Nat.zero_le _, Nat.zero_le _⟩

theorem demand_of_searchLoop_reached {target : Marker} {a rest : Agenda}
    (h : searchLoop target a = .reached rest) :
    (demand rest).need ≤ (demand a).floor + 1 ∧ (demand rest).floor ≤ (demand a).floor := by
  obtain ⟨dropped, -, rfl⟩ := eq_of_searchLoop_reached h
  exact demand_behind_marker dropped target rest

theorem floor_of_searchLoop_scope {target : Marker} {a rest : Agenda} {item : Item}
    (h : searchLoop target a = .scope item rest) : (demand rest).floor ≤ (demand a).floor := by
  obtain ⟨dropped, hdropped⟩ := suffix_of_searchLoop_scope h
  -- The end of the scope goes with the dropped part; it asks for nothing.
  rw [← hdropped, List.append_cons]
  exact floor_le_append _ rest

end Agenda

end ExplicitControl
