/-!
The codes of diagnostics, by which they can be looked up.
-/

namespace ExplicitControl

/-- A code: `E70` for names, `E71` for types, `E72` for calls and control, `E73` for limits, `E90` for
failures of the evaluator itself. -/
inductive ErrorCode where
  /-- A name declared twice in one scope. -/
  | e7001
  /-- A use before the declaration was executed. -/
  | e7002
  /-- A name that no scope declares. -/
  | e7003
  /-- An assignment to a constant. -/
  | e7004
  /-- A unary operator on the wrong type. -/
  | e7101
  /-- A binary operator on the wrong types. -/
  | e7102
  /-- A logical operator on no boolean. -/
  | e7103
  /-- A condition that is no boolean. -/
  | e7104
  /-- A member of the wrong type. -/
  | e7105
  /-- A wrong number of arguments. -/
  | e7201
  /-- A call of something that is no function. -/
  | e7202
  /-- A `break` or `continue` without a loop. -/
  | e7203
  /-- A failure of a host function. -/
  | e7204
  /-- Too many live calls. -/
  | e7301
  /-- Too many steps, or too much time. -/
  | e7302
  /-- A failure of the evaluator. -/
  | e9001
deriving DecidableEq, Inhabited

namespace ErrorCode

def all : List ErrorCode :=
  [e7001, e7002, e7003, e7004, e7101, e7102, e7103, e7104, e7105, e7201, e7202, e7203, e7204, e7301,
   e7302, e9001]

def text : ErrorCode → String
  | e7001 => "E7001"
  | e7002 => "E7002"
  | e7003 => "E7003"
  | e7004 => "E7004"
  | e7101 => "E7101"
  | e7102 => "E7102"
  | e7103 => "E7103"
  | e7104 => "E7104"
  | e7105 => "E7105"
  | e7201 => "E7201"
  | e7202 => "E7202"
  | e7203 => "E7203"
  | e7204 => "E7204"
  | e7301 => "E7301"
  | e7302 => "E7302"
  | e9001 => "E9001"

def parse? (s : String) : Option ErrorCode :=
  let s :=
    match s.toList with
    | 'e' :: rest => String.ofList ('E' :: rest)
    | _ => s
  all.find? fun code => code.text == s

def isScope (code : ErrorCode) : Bool :=
  [e7001, e7002, e7003, e7004].contains code

def isType (code : ErrorCode) : Bool :=
  [e7101, e7102, e7103, e7104, e7105].contains code

def isControl (code : ErrorCode) : Bool :=
  [e7201, e7202, e7203, e7204].contains code

def isResource (code : ErrorCode) : Bool :=
  [e7301, e7302].contains code

def isInternal (code : ErrorCode) : Bool :=
  code == e9001

end ErrorCode

end ExplicitControl
