import LineLint.LiteralScan
import LineLint.Rule

/-!
# Duplicate lines

A run of lines that are equal up to outer blanks is reported once, at its first line, if it is long
enough and neither blank nor a comment. Runs are maximal, so no line belongs to two of them.
-/

namespace LineLint

structure DuplicateLines where
  style : LiteralStyle := {}
  minRun : Int := 3

namespace DuplicateLines

/-- How many of the lines are, up to outer blanks, the given text before another line comes. -/
def runLength (stripped : Text) (lines : List Text) : Nat :=
  (lines.takeWhile fun line => line.trim == stripped).length

def counts (r : DuplicateLines) (stripped : Text) (length : Nat) : Bool :=
  r.minRun ≤ length && !stripped.isEmpty && !r.style.isCommentLine stripped

/-- The findings for the runs of the lines from `index` on. -/
def checkFrom (r : DuplicateLines) (index : Nat) (lines : List Text) : List Finding :=
  match lines with
  | [] => []
  | line :: rest =>
      let further := runLength line.trim rest
      let length := further + 1
      let found : List Finding :=
        if r.counts line.trim length then [{ index, fields := [("count", Text.ofInt length)] }]
        else []
      found ++ checkFrom r (index + length) (rest.drop further)
termination_by lines.length
decreasing_by simp +arith [List.length_drop]

def check (r : DuplicateLines) (lines : List Text) : List Finding := r.checkFrom 0 lines

def rule (r : DuplicateLines) : Rule :=
  .ofCheck .duplicateLines ⟨"qualityDuplicateLines", "heuristic", "heuristic"⟩ r.check

end DuplicateLines

end LineLint
