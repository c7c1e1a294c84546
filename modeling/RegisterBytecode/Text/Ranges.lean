/-!
# Tables of ranges

A set of numbers is given by an array of inclusive ranges in ascending order. Membership is found
by halving.
-/

namespace RegisterBytecode.Text

/-- Whether a number lies in one of the ranges from `lo` up to `hi` of a table. -/
def inRangesFrom (table : Array (Nat × Nat)) (n lo hi : Nat) : Bool :=
  if lo < hi then
    let mid := (lo + hi) / 2
    match table[mid]? with
    | some (first, last) =>
      if n < first then inRangesFrom table n lo mid
      else if last < n then inRangesFrom table n (mid + 1) hi
      else true
    | none => false
  else false
termination_by hi - lo

/-- Whether a number lies in one of the ranges of a table. -/
def inRanges (table : Array (Nat × Nat)) (n : Nat) : Bool := inRangesFrom table n 0 table.size

end RegisterBytecode.Text
