/-!
# Character classes as lists of ranges

A small class of characters is written as a list of code point ranges, both ends included. In a large one
the ranges follow each other as runs: each with the number of code points that are left out before it, and
the number of those in it.
-/

namespace Lasso.Text

/-- Whether the code point of `c` lies in one of the ranges. -/
def inRanges (ranges : List (Nat × Nat)) (c : Char) : Bool :=
  ranges.any fun r => r.1 ≤ c.toNat && c.toNat ≤ r.2

theorem inRanges_iff {ranges : List (Nat × Nat)} {c : Char} :
    inRanges ranges c = true ↔ ∃ r ∈ ranges, r.1 ≤ c.toNat ∧ c.toNat ≤ r.2 := by
  simp [inRanges]

/-- Whether a number lies in one of the runs. -/
def inRuns : List (Nat × Nat) → Nat → Bool
  | [], _ => false
  | (gap, length) :: rest, n =>
    if n < gap then false
    else if n < gap + length then true
    else inRuns rest (n - (gap + length))

end Lasso.Text
