import ErlangMacros.Text

/-!
# Ranges of code points

A class of characters outside ASCII is given by a table of ranges of code points.
-/

namespace ErlangMacros.Text

/-- Membership in a table of ranges, both ends of each included. -/
def inRanges (ranges : List (Nat × Nat)) (n : Nat) : Bool :=
  ranges.any fun r => r.1 ≤ n && n ≤ r.2

/-- Membership in a table of stretches of which every second code point counts, from the first on. -/
def inAlternating (ranges : List (Nat × Nat)) (n : Nat) : Bool :=
  ranges.any fun r => r.1 ≤ n && n ≤ r.2 && (n - r.1) % 2 == 0

theorem inRanges_iff {ranges : List (Nat × Nat)} {n : Nat} :
    inRanges ranges n = true ↔ ∃ r ∈ ranges, r.1 ≤ n ∧ n ≤ r.2 := by
  simp [inRanges]

end ErlangMacros.Text
