/-!
# Ranges of characters

A closed range of code points, and membership in a list of them. Character classes that reach
beyond ASCII are given as such lists.
-/

namespace LineLint

abbrev CharRange := Nat × Nat

namespace CharRange

def holds (r : CharRange) (c : Char) : Bool := r.1 ≤ c.toNat && c.toNat ≤ r.2

end CharRange

/-- Whether one of the ranges holds the character. -/
def inRanges (ranges : List CharRange) (c : Char) : Bool := ranges.any fun r => r.holds c

end LineLint
