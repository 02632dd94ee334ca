/-!
Classes of code points given by the sorted points at which membership changes. A code point is in
the class if an odd number of boundaries does not exceed it.
-/

namespace Crosswalk.Text

/-- How many entries of the sorted `table` from `start` on, among the next `width`, do not exceed
`n`, added to `start`. -/
def boundariesUpTo (table : Array Nat) (n start width : Nat) : Nat :=
  if width = 0 then start
  else if table.getD (start + width / 2) 0 ≤ n then
    boundariesUpTo table n (start + width / 2 + 1) (width - width / 2 - 1)
  else boundariesUpTo table n start (width / 2)
termination_by width

/-- The points at which runs of these lengths end, one after the other from `start` on. -/
def runEnds (start : Nat) : List Nat → List Nat
  | [] => []
  | n :: ns => (start + n) :: runEnds (start + n) ns

def withinBoundaries (table : Array Nat) (n : Nat) : Bool :=
  boundariesUpTo table n 0 table.size % 2 == 1

end Crosswalk.Text
