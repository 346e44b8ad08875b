import ExplicitControl.Json.Basic
import ExplicitControl.Decimal.Scaled

/-!
Reading JSON text. The reader accepts exactly the JSON grammar: four blanks, no comments, no trailing
commas, no characters after the value. Text that is well formed but denotes nothing becomes
`Json.unreadable`, so that it does no harm where nobody looks at it.
-/

namespace ExplicitControl.Json.Reader

open Decimal (Literal)

/-- A reader takes the text ahead and gives a result with the text behind it, or fails. -/
abbrev Parser (α : Type) := List Char → Option (α × List Char)

def isSpace (c : Char) : Bool :=
  c == ' ' || c == '\t' || c == '\n' || c == '\r'

def skipSpace (cs : List Char) : List Char :=
  cs.dropWhile isSpace

/-! ## Strings -/

def hexValue? (c : Char) : Option Nat :=
  if '0' ≤ c && c ≤ '9' then some (c.toNat - '0'.toNat)
  else if 'a' ≤ c && c ≤ 'f' then some (c.toNat - 'a'.toNat + 10)
  else if 'A' ≤ c && c ≤ 'F' then some (c.toNat - 'A'.toNat + 10)
  else none

def hexUnit? (a b c d : Char) : Option Nat := do
  return (((← hexValue? a) * 16 + (← hexValue? b)) * 16 + (← hexValue? c)) * 16 + (← hexValue? d)

def simpleEscape? (c : Char) : Option Char :=
  match c with
  | '\"' => some '\"'
  | '\\' => some '\\'
  | '/' => some '/'
  | 'b' => some '\x08'
  | 'f' => some '\x0c'
  | 'n' => some '\n'
  | 'r' => some '\r'
  | 't' => some '\t'
  | _ => none

def isHighSurrogate (unit : Nat) : Bool :=
  0xD800 ≤ unit && unit ≤ 0xDBFF

def isLowSurrogate (unit : Nat) : Bool :=
  0xDC00 ≤ unit && unit ≤ 0xDFFF

def joinSurrogates (high low : Nat) : Char :=
  Char.ofNat (0x10000 + (high - 0xD800) * 0x400 + (low - 0xDC00))

/-- A character of a string as it is written: itself, or the number of a UTF-16 unit. -/
inductive Piece where
  | char (c : Char)
  | unit (n : Nat)

/-- The rest of a string whose opening quote has been read, with the pieces so far in reverse. -/
def stringTail (seen : List Piece) : Parser (List Piece)
  | [] => none
  | '\"' :: rest => some (seen.reverse, rest)
  | '\\' :: 'u' :: a :: b :: c :: d :: rest =>
    match hexUnit? a b c d with
    | none => none
    | some n => stringTail (.unit n :: seen) rest
  | '\\' :: c :: rest =>
    match simpleEscape? c with
    | none => none
    | some e => stringTail (.char e :: seen) rest
  | c :: rest => if c.toNat < 0x20 || c == '\\' then none else stringTail (.char c :: seen) rest

/-- The text that the pieces of a string spell, unless half of a surrogate pair is among them. -/
def spell : List Piece → Option (List Char)
  | [] => some []
  | .char c :: rest => (spell rest).map (c :: ·)
  | .unit n :: .unit m :: rest =>
    if isHighSurrogate n then
      if isLowSurrogate m then (spell rest).map (joinSurrogates n m :: ·) else none
    else if isLowSurrogate n then none
    else (spell (.unit m :: rest)).map (Char.ofNat n :: ·)
  | .unit n :: rest =>
    if isHighSurrogate n || isLowSurrogate n then none
    else (spell rest).map (Char.ofNat n :: ·)

/-- A string whose opening quote has been read; `none` inside for one that spells no text. -/
def string : Parser (Option String) := fun cs =>
  (stringTail [] cs).map fun (pieces, rest) => ((spell pieces).map String.ofList, rest)

/-! ## Numbers -/

def digits (cs : List Char) : List Nat × List Char :=
  ((cs.takeWhile Char.isDigit).map fun c => c.toNat - '0'.toNat, cs.dropWhile Char.isDigit)

def digits1 : Parser (List Nat) := fun cs =>
  let (ds, rest) := digits cs
  if ds.isEmpty then none else some (ds, rest)

/-- The digits before the point: a zero stands alone. -/
def whole : Parser (List Nat)
  | '0' :: rest => if rest.head?.any Char.isDigit then none else some ([0], rest)
  | cs => digits1 cs

def fraction : Parser (Option (List Nat))
  | '.' :: rest => (digits1 rest).map fun (ds, rest) => (some ds, rest)
  | cs => some (none, cs)

def exponentTail : Parser (Bool × List Nat)
  | '-' :: rest => (digits1 rest).map fun (ds, rest) => ((true, ds), rest)
  | '+' :: rest => (digits1 rest).map fun (ds, rest) => ((false, ds), rest)
  | cs => (digits1 cs).map fun (ds, rest) => ((false, ds), rest)

def exponent : Parser (Option (Bool × List Nat))
  | 'e' :: rest | 'E' :: rest => (exponentTail rest).map fun (e, rest) => (some e, rest)
  | cs => some (none, cs)

def literalTail (negative : Bool) : Parser Literal := fun cs => do
  let (ds, cs) ← whole cs
  let (part, cs) ← fraction cs
  let (power, cs) ← exponent cs
  return (⟨negative, ds, part, power⟩, cs)

/-- The number that a literal denotes. Without point and exponent it is an integer if it fits a word;
minus zero is no integer. -/
def numberOf (l : Literal) : Json :=
  let (word, excess) := Decimal.gather 0 l.whole
  let integer :=
    if l.fraction.isSome || l.exponent.isSome || excess ≠ 0 then none
    else if !l.negative then some (.natural word.toUInt64)
    else if 0 < word && word ≤ Nat.pow 2 63 then some (.negative (Int64.ofInt (-word)))
    else none
  match integer with
  | some n => .number n
  | none =>
    match l.toFloat? with
    | some x => .number (.real x)
    | none => .unreadable

/-! ## Values -/

mutual

/-- One value, after blanks. Every nested value starts behind a bracket, a comma or a colon, so a depth of
the text's length is never exceeded. -/
def value (depth : Nat) (cs : List Char) : Option (Json × List Char) :=
  match depth with
  | 0 => none
  | depth + 1 =>
    match skipSpace cs with
    | 'n' :: 'u' :: 'l' :: 'l' :: rest => some (.null, rest)
    | 't' :: 'r' :: 'u' :: 'e' :: rest => some (.bool true, rest)
    | 'f' :: 'a' :: 'l' :: 's' :: 'e' :: rest => some (.bool false, rest)
    | '\"' :: rest =>
      match string rest with
      | none => none
      | some (some s, rest) => some (.string s, rest)
      | some (none, rest) => some (.unreadable, rest)
    | '[' :: rest =>
      match skipSpace rest with
      | ']' :: rest => some (.array [], rest)
      | rest => items depth [] rest
    | '\x7b' :: rest =>
      match skipSpace rest with
      | '\x7d' :: rest => some (.object [], rest)
      | rest => members depth (some []) rest
    | '-' :: rest => (literalTail true rest).map fun (l, rest) => (numberOf l, rest)
    | rest => (literalTail false rest).map fun (l, rest) => (numberOf l, rest)

/-- The rest of a non-empty array from one of its items on, with the items so far in reverse. -/
def items (depth : Nat) (seen : List Json) (cs : List Char) : Option (Json × List Char) :=
  match depth with
  | 0 => none
  | depth + 1 =>
    match value depth cs with
    | none => none
    | some (j, rest) =>
      match skipSpace rest with
      | ',' :: rest => items depth (j :: seen) rest
      | ']' :: rest => some (.array (j :: seen).reverse, rest)
      | _ => none

/-- The rest of a non-empty object from one of its members on, with the members so far in reverse, or
nothing if one of them has no readable name. -/
def members (depth : Nat) (seen : Option (List (String × Json))) (cs : List Char) :
    Option (Json × List Char) :=
  match depth with
  | 0 => none
  | depth + 1 =>
    match skipSpace cs with
    | '\"' :: rest =>
      match string rest with
      | none => none
      | some (name, rest) =>
        match skipSpace rest with
        | ':' :: rest =>
          match value depth rest with
          | none => none
          | some (j, rest) =>
            let seen := seen.bind fun ms => name.map fun n => (n, j) :: ms
            match skipSpace rest with
            | ',' :: rest => members depth seen rest
            | '\x7d' :: rest =>
              some (match seen with
                | some ms => .object ms.reverse
                | none => .unreadable, rest)
            | _ => none
        | _ => none
    | _ => none

end

end Reader

def parse? (text : String) : Option Json :=
  let cs := text.toList
  match Reader.value (2 * cs.length + 2) cs with
  | some (j, rest) => if (Reader.skipSpace rest).isEmpty then some j else none
  | none => none

end ExplicitControl.Json
