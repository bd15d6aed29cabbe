import LineLint.Blank
import LineLint.Fault

/-!
# Indentation

Column widths with tabs, rounding of widths to a unit, and the indentation of replacement lines
relative to the line they replace. The unit may be any integer, but a rounding by zero is a fault,
and so is a measuring with tabs whose width does not fit into 32 bits.
-/

namespace LineLint

namespace Indentation

/-- The number of columns that `t` fills when it starts at `column`. A tab goes on to the next
multiple of `unit`, or fills nothing if there is none; a line break starts again at column 0. -/
def widthFrom (unit : Int) (column : Nat) : Text → Nat
  | [] => 0
  | c :: rest =>
      if c == '\t' then
        let step := if 0 < unit then (unit - Int.fmod column unit).toNat else 0
        step + widthFrom unit (column + step) rest
      else if c == '\n' || c == '\r' then 1 + widthFrom unit 0 rest
      else 1 + widthFrom unit (column + 1) rest

def width (unit : Int) (t : Text) : Nat := widthFrom unit 0 t

/-- The width of the indentation of a line. -/
def lineWidth (unit : Int) (line : Text) : Nat := width unit line.indentation

/-- Whether tabs can have a width: one of 32 bits, with a sign. -/
def isTabWidth (unit : Int) : Bool := -2147483648 ≤ unit && unit < 2147483648

def measure (unit : Int) (t : Text) : Except Fault Nat :=
  if isTabWidth unit then .ok (width unit t) else .error .tabRange

def measureLine (unit : Int) (line : Text) : Except Fault Nat := measure unit line.indentation

/-- What a width has beyond a multiple of `unit`. -/
def beyond (w unit : Int) : Except Fault Int :=
  if unit == 0 then .error .moduloZero else .ok (Int.fmod w unit)

/-- The multiple of `unit` nearest to a width; a tie goes up. -/
def nearest (w unit : Int) : Except Fault Int :=
  if unit == 0 then .error .divisionZero
  else .ok (Int.fdiv (w + Int.fdiv unit 2) unit * unit)

/-- One level deeper than an aligned width; from an unaligned one, the next multiple of `unit`. -/
def next (w unit : Int) : Except Fault Int := do
  if (← beyond w unit) == 0 then return w + unit
  else return (Int.fdiv w unit + 1) * unit

/-- `new` in the place of `line`. With `ownIndent` its indentation counts, rounded to the unit;
otherwise it takes the indentation of `line` unless it has its own. -/
def reindentLine (unit : Int) (line new : Text) (ownIndent : Bool) : Except Fault Text :=
  if ownIndent then do
    let w ← nearest (← measureLine unit new) unit
    return Text.spaces w ++ new.dropIndentation
  else if new.indentation.isEmpty then .ok (line.indentation ++ new.dropIndentation)
  else .ok new

/-- One line of a block: blank lines are emptied, lines without indentation take that of the line
they replace, and indented ones go one level below it, keeping what they have beyond one unit. -/
def blockLine (unit : Int) (base : Text) (nested : Int) (line : Text) : Text :=
  if line.allBlank then []
  else if line.indentation.isEmpty then base ++ line
  else
    let extra := max (Int.ofNat (lineWidth unit line) - unit) 0
    Text.spaces (nested + extra) ++ line.dropIndentation

def reindentBlock (unit : Int) (line : Text) (lines : List Text) : Except Fault (List Text) := do
  let nested ← next (← measureLine unit line) unit
  return lines.map (blockLine unit line.indentation nested)

end Indentation

end LineLint
