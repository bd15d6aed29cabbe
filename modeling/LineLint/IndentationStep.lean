import LineLint.Indentation
import LineLint.LineScan
import LineLint.Rule

/-!
# Indentation in steps

The indentation of a line is a multiple of the unit, and the fix rounds it down. Lines that go on
with the statement before them are left alone, unless continuations play no part in the language.
-/

namespace LineLint

structure IndentationStep where
  unit : Int := 4
  style : LiteralStyle := {}
  continuations : Bool := true

namespace IndentationStep

/-- Whether the indentation of a line is judged at all. -/
def judges (r : IndentationStep) (line : Text) (continued : Bool) : Bool :=
  !line.allBlank && !continued && !(r.style.blockComments && line.trim.head? == some '*')

def checkLine (r : IndentationStep) (index : Nat) (line : Text) (continued : Bool) :
    Except Fault (List Finding) := do
  if !r.judges line continued then return []
  else
    let width : Int := ← Indentation.measureLine r.unit line
    let beyond ← Indentation.beyond width r.unit
    if beyond == 0 then return []
    else return [{
      index
      replacement := Text.spaces (width - beyond) ++ line.dropIndentation
      fields := [("unit", Text.ofInt r.unit), ("width", Text.ofInt width)] }]

def check (r : IndentationStep) (lines : List Text) : Except Fault (List Finding) := do
  let flags :=
    if r.continuations then LineScan.continued r.style lines else lines.map fun _ => false
  let found ← (lines.zip flags).zipIdx.mapM fun ((line, continued), index) =>
    r.checkLine index line continued
  return found.flatten

def rule (r : IndentationStep) : Rule :=
  .ofFindings .indentation ⟨"formatIndentation", "style", "policy"⟩ r.check

end IndentationStep

end LineLint
