/-!
Source locations: the byte range of a node in the file that its tree was made from.
-/

namespace ExplicitControl

/-- The bytes from `start` up to, but not including, `stop`. Nothing keeps a tree from giving them in the
wrong order; such a span counts as empty. -/
structure Span where
  start : UInt32
  stop : UInt32
deriving DecidableEq, Inhabited

namespace Span

/-- The span of a node without a place in any file. -/
def dummy : Span := ⟨0, 0⟩

/-- One byte that stands for the node of that number in a tree made without source text, so that it can
still be pointed at. -/
def synthetic (index : UInt32) : Span :=
  ⟨index, if index = 4294967295 then index else index + 1⟩

def length (s : Span) : Nat :=
  s.stop.toNat - s.start.toNat

def isEmpty (s : Span) : Bool :=
  s.length == 0

def text (s : Span) : String :=
  toString s.start.toNat ++ ".." ++ toString s.stop.toNat

end Span

end ExplicitControl
