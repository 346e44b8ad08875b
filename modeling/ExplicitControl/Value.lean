import ExplicitControl.Arity
import ExplicitControl.Tree.Node

/-!
Run-time values. Scalars are held in the value itself; arrays and objects live in a heap and are known by
their cell, so that a change through one reference is seen through all. Two functions are the same only if
they were made by the same act, which their identity records.
-/

namespace ExplicitControl

structure CellId where
  index : Nat
deriving DecidableEq, Inhabited

/-- An environment: the frame in which a name is looked up first, and the number by which it is shown. -/
structure Env where
  id : UInt32
  frame : Nat
deriving DecidableEq, Inhabited

/-- A function of the program with the environment it was made in. Parameters and body are those of its
node. -/
structure Closure where
  node : NodeId
  name : Option Name
  arity : Nat
  env : Env
deriving DecidableEq, Inhabited

inductive Builtin where
  | display | error | stringify | arrayLength | push
  | isNumber | isString | isBoolean | isFunction | isArray | isUndefined
  | mathFloor | mathSqrt
  /-- The methods of arrays. -/
  | pushMethod | popMethod
deriving DecidableEq, Inhabited

/-- What a host function does: something built in, or the function of that number among those that the
embedding program adds. -/
inductive HostAction where
  | builtin (b : Builtin)
  | embedded (index : Nat)
deriving DecidableEq, Inhabited

/-- A function that runs to its end in a single step, outside the program. -/
structure HostFunction where
  name : String
  arity : Arity
  action : HostAction
deriving DecidableEq, Inhabited

inductive Value where
  | undefined
  | null
  | bool (b : Bool)
  | number (x : Float)
  | string (s : String)
  | array (cell : CellId)
  | object (cell : CellId)
  | closure (identity : Nat) (closure : Closure)
  | host (identity : Nat) (function : HostFunction)
  /-- The function that captures continuations. -/
  | callCc
  /-- The captured continuation of that number. -/
  | continuation (snapshot : Nat)
deriving Inhabited

namespace Value

def typeName : Value → String
  | undefined => "undefined"
  | null => "null"
  | bool _ => "boolean"
  | number _ => "number"
  | string _ => "string"
  | array _ => "array"
  | object _ => "object"
  | closure .. | host .. | callCc | continuation _ => "function"

def isCallable : Value → Bool
  | closure .. | host .. | callCc | continuation _ => true
  | _ => false

def isTruthy : Value → Bool
  | undefined | null => false
  | bool b => b
  | number x => x != 0 && !x.isNaN
  | string s => !s.isEmpty
  | _ => true

/-- Whether two values are the same: by identity for arrays, objects and functions, by content otherwise. -/
def strictEquals : Value → Value → Bool
  | undefined, undefined | null, null | callCc, callCc => true
  | bool a, bool b => a == b
  | number a, number b => a == b
  | string a, string b => a == b
  | array a, array b | object a, object b => a == b
  | closure a _, closure b _ | host a _, host b _ => a == b
  | continuation a, continuation b => a == b
  | _, _ => false

/-- The place in an array that a value names: an integral number from zero on, below `2 ^ 32`. -/
def asIndex : Value → Option Nat
  | number x =>
    if 0 ≤ x && x ≤ 4294967295 && x.floor == x then some x.toUInt64.toNat else none
  | _ => none

end Value

end ExplicitControl
