/-!
# Ranges of code points

Character classes beyond ASCII are tables of closed ranges in increasing order.  This file
holds the look-up that all of them share.  All the tables are of version 14 of Unicode: a
character that a later version assigns belongs to no class here.
-/

namespace ScopeTags.Text

/-- Whether `n` lies in one of the ranges.  The ranges stand in increasing order, so the search
    stops at the first one that starts beyond `n`. -/
def inRanges (n : Nat) : List (Nat × Nat) → Bool
  | [] => false
  | (lo, hi) :: ranges => if n < lo then false else n ≤ hi || inRanges n ranges

/-- Like `inRanges`, but of each range only every second code point counts, from the first on. -/
def inAlternating (n : Nat) : List (Nat × Nat) → Bool
  | [] => false
  | (lo, hi) :: ranges =>
    if n < lo then false else (n ≤ hi && (n - lo) % 2 == 0) || inAlternating n ranges

end ScopeTags.Text
