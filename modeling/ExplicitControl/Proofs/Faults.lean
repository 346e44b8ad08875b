import ExplicitControl.Machine.Execute

/-!
# What goes wrong with values

An operation on values fails for one reason only: a value is not of the kind that the operation asks for.  Writing a
property has one more, since the text of the key may need the object that is being written.  So the faults of
operations on values need not be told apart any further wherever others than these are looked for.
-/

namespace ExplicitControl

namespace Fault

def isTypeMismatch : Fault → Bool
  | unaryTypeMismatch .. | binaryTypeMismatch .. | logicalTypeMismatch .. | conditionalTypeMismatch ..
  | memberTypeMismatch .. => true
  | _ => false

def isOverflow : Fault → Bool
  | stackOverflow .. => true
  | _ => false

/-- The faults that any part of the machine may run into.  Only recording a call overflows, only a write comes upon an
object in use, and only where a number stands for nothing is the tree to blame. -/
def isOrdinary : Fault → Bool
  | stackOverflow .. | objectInUse | malformedTree _ => false
  | _ => true

variable {fault : Fault}

theorem isOrdinary_of_isTypeMismatch (h : fault.isTypeMismatch = true) : fault.isOrdinary = true := by
  cases fault <;> first | rfl | cases h

theorem isOverflow_of_isOrdinary (h : fault.isOrdinary = true) : fault.isOverflow = false := by
  cases fault <;> first | rfl | cases h

end Fault

theorem ScopeError.isOrdinary_fault (e : ScopeError) (name : String) : (e.fault name).isOrdinary = true := by
  cases e <;> rfl

section

variable {fault : Fault} {checks : RuntimeChecks} {h heap : Heap} {object key v : Value}

/-! ## 1. Operators and conditions -/

theorem UnaryOp.eval_isTypeMismatch {op : UnaryOp} (herror : op.eval v checks = .error fault) :
    fault.isTypeMismatch = true := by
  unfold UnaryOp.eval at herror
  split at herror
  · cases herror
  · cases herror
  · split at herror <;> cases herror
    rfl
  · split at herror <;> cases herror
    rfl

theorem BinaryOp.mismatch?_isTypeMismatch {op : BinaryOp} {left right : Value} {fault : Fault}
    (h : op.mismatch? left right = some fault) : fault.isTypeMismatch = true := by
  unfold mismatch? at h
  split at h <;> split at h <;> cases h <;> rfl

theorem BinaryOp.eval_isTypeMismatch {op : BinaryOp} {left right : Value}
    (herror : op.eval h left right checks = .error fault) : fault.isTypeMismatch = true := by
  unfold BinaryOp.eval at herror
  split at herror
  · split at herror
    next hmismatch =>
      cases herror
      exact mismatch?_isTypeMismatch hmismatch
    next => cases herror
  · cases herror

theorem LogicalOp.truth_isTypeMismatch {op : LogicalOp} (herror : op.truth v checks = .error fault) :
    fault.isTypeMismatch = true := by
  unfold LogicalOp.truth at herror
  split at herror
  · cases herror
  · split at herror <;> cases herror
    rfl

theorem Value.condition_isTypeMismatch {context : String} (herror : v.condition context checks = .error fault) :
    fault.isTypeMismatch = true := by
  unfold Value.condition at herror
  split at herror
  · cases herror
  · split at herror <;> cases herror
    rfl

/-! ## 2. Members -/

theorem Member.unlessChecked_isTypeMismatch {complaint : Fault} (hcomplaint : complaint.isTypeMismatch = true)
    (herror : unlessChecked checks complaint v = .error fault) : fault.isTypeMismatch = true := by
  unfold unlessChecked at herror
  split at herror <;> cases herror
  exact hcomplaint

theorem Member.ofArray_isTypeMismatch {elements : Array Value} (herror : ofArray elements key checks = .error fault) :
    fault.isTypeMismatch = true := by
  unfold ofArray at herror
  split at herror
  · cases herror
  · split at herror
    · split at herror
      · cases herror
      · exact unlessChecked_isTypeMismatch rfl herror
    · exact unlessChecked_isTypeMismatch rfl herror

theorem memberGet_isTypeMismatch (herror : memberGet h object key checks = .error fault) :
    fault.isTypeMismatch = true := by
  unfold memberGet at herror
  split at herror
  · exact Member.ofArray_isTypeMismatch herror
  · split at herror
    · cases herror
    · split at herror <;> cases herror
      rfl
  · split at herror
    · split at herror
      · cases herror
      · exact Member.unlessChecked_isTypeMismatch rfl herror
    · exact Member.unlessChecked_isTypeMismatch rfl herror
  · cases herror
    rfl
  · cases herror
    rfl
  · exact Member.unlessChecked_isTypeMismatch rfl herror

theorem Machine.findMethod_isTypeMismatch {p : Setting} (herror : findMethod p h object key = .error fault) :
    fault.isTypeMismatch = true := by
  unfold findMethod at herror
  split at herror
  · split at herror
    · cases herror
    · exact memberGet_isTypeMismatch herror
  · exact memberGet_isTypeMismatch herror

theorem Member.setElement_isTypeMismatch {c : CellId} (herror : setElement c key v checks h = .error fault heap) :
    fault.isTypeMismatch = true := by
  unfold setElement at herror
  split at herror
  · split at herror <;> cases herror
    rfl
  · split at herror <;> cases herror
    rfl

/-- What is written is a property of an object if the object is in use. -/
theorem memberSet_fault_cases (herror : memberSet object key v checks h = .error fault heap) :
    fault.isTypeMismatch = true ∨ fault = .objectInUse ∧ ∃ c, object = .object c := by
  unfold memberSet at herror
  split at herror
  next c => exact .inl (Member.setElement_isTypeMismatch herror)
  next c =>
    unfold Member.setProperty at herror
    split at herror
    · cases herror
    · split at herror
      · cases herror
        exact .inl rfl
      · split at herror <;> cases herror
        exact .inr ⟨rfl, c, rfl⟩
  next =>
    cases herror
    exact .inl rfl
  next =>
    cases herror
    exact .inl rfl
  next =>
    split at herror
    · cases herror
      exact .inl rfl
    · cases herror

end

end ExplicitControl
