/-! # Tables of code points

    A property of characters is given by the runs of code points that have it, each
    as its first and last one. -/

namespace Packrat.Text

/-- Runs of code points, each with its first and last one. -/
abbrev RangeTable := List (Nat × Nat)

namespace RangeTable

/-- Some run holds the code point. -/
def contains (t : RangeTable) (n : Nat) : Bool :=
  t.any fun (first, last) => first ≤ n && n ≤ last

/-- Every run is in order and starts at `least` or later, with a gap before the next run. -/
def isOrderedFrom (least : Nat) : RangeTable → Bool
  | [] => true
  | (first, last) :: rest => least ≤ first && first ≤ last && isOrderedFrom (last + 2) rest

end RangeTable

end Packrat.Text
