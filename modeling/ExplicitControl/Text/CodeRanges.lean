/-!
Sets of characters given as closed ranges of code points, the form in which character properties are
tabulated.
-/

namespace ExplicitControl.Text

abbrev CodeRanges := List (Nat × Nat)

def CodeRanges.contains (ranges : CodeRanges) (code : Nat) : Bool :=
  ranges.any fun range => range.1 ≤ code && code ≤ range.2

end ExplicitControl.Text
