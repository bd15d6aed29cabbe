import LineLint.Text

/-!
# Edit distance

The least number of insertions, deletions, substitutions and swaps of neighbours that turn one text
into another, where no character is edited twice. The table of distances is built row by row; a row
holds the distances of one part of the first text to all parts of the second.
-/

namespace LineLint

namespace EditDistance

/-- The rest of a row. `left` is the entry before it, `passed` the character of the second text
there, `above` the previous row from that column on, and `older` the row before it, one column
behind. -/
def rowFrom (x : Char) (before : Option Char) (left : Nat) (passed : Option Char) :
    Text → List Nat → List Nat → List Nat
  | y :: b, diagonal :: up :: above, older =>
      let plain := min (min (up + 1) (left + 1)) (diagonal + if x == y then 0 else 1)
      let entry := match before, passed, older with
        | some x', some y', swapped :: _ =>
            if x == y' && x' == y then min plain (swapped + 1) else plain
        | _, _, _ => plain
      entry :: rowFrom x before entry (some y) b (up :: above)
        (if passed.isSome then older.drop 1 else older)
  | _, _, _ => []

/-- The last row, from the row number, the character before, and the two rows above. -/
def lastRow (b : Text) (number : Nat) (before : Option Char) (older above : List Nat) :
    Text → List Nat
  | [] => above
  | x :: a =>
      let row := (number + 1) :: rowFrom x before (number + 1) none b above older
      lastRow b (number + 1) (some x) above row a

end EditDistance

def editDistance (a b : Text) : Nat :=
  (EditDistance.lastRow b 0 none [] (List.range (b.length + 1)) a).getLast?.getD 0

end LineLint
