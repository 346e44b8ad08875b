import ExplicitControl.Text.Bytes

/-!
Lines and columns of byte offsets. Lines and columns count from one, columns in characters, and both are
numbers of 32 bits. An offset past the end stands for the end; one inside a character is given the first
column of its line.
-/

namespace ExplicitControl

structure LineCol where
  line : UInt32
  column : UInt32
deriving DecidableEq

structure LineTable where
  source : List Char
  starts : List Nat

namespace LineTable

/-- The offset after each newline; `offset` is that of the first character. -/
def startsAfter (offset : Nat) : List Char → List Nat
  | [] => []
  | c :: cs =>
    let next := offset + c.utf8Size
    if c = '\n' then next :: startsAfter next cs else startsAfter next cs

def ofChars (source : List Char) : LineTable :=
  ⟨source, 0 :: startsAfter 0 source⟩

def ofString (source : String) : LineTable :=
  ofChars source.toList

def lineCount (t : LineTable) : Nat :=
  t.starts.length

/-- A number that counts from zero, as one that counts from one. It is clamped to 32 bits, but the last of
these has no successor: there the sum wraps around. -/
def fromOne (n : Nat) : UInt32 :=
  (if n < 4294967296 then UInt32.ofNat n else 4294967294) + 1

/-- The lines before that of an offset: all that start at it or before, but for its own. -/
def linesBefore (t : LineTable) (offset : Nat) : Nat :=
  (t.starts.countP fun start => start ≤ offset) - 1

def lineOf (t : LineTable) (offset : Nat) : UInt32 :=
  fromOne (t.linesBefore offset)

def startOf (t : LineTable) (line : UInt32) : Nat :=
  t.starts.getD (line - 1).toNat 0

/-- The characters from the start of its line to an offset; none where the text cannot be cut. -/
def charsBefore (t : LineTable) (offset : Nat) : Nat :=
  let start := t.startOf (t.lineOf offset)
  let stop := max (min offset (Text.byteLength t.source)) start
  ((Text.sliceBytes t.source start stop).map List.length).getD 0

def lineCol (t : LineTable) (offset : Nat) : LineCol :=
  ⟨t.lineOf offset, fromOne (t.charsBefore offset)⟩

def lineText? (t : LineTable) (line : Nat) : Option (List Char) :=
  if line = 0 then none
  else
    match t.starts[line - 1]? with
    | none => none
    | some start =>
      let stop :=
        match t.starts[line]? with
        | some next => next - 1
        | none => Text.byteLength t.source
      Text.sliceBytes t.source start stop

end LineTable

end ExplicitControl
