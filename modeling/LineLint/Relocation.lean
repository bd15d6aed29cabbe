import LineLint.Diagnostic
import LineLint.LiteralMask
import LineLint.Preamble

/-!
# Relocation of top-level statements

Lines that match a pattern at the start of the line move, with the lines on which their parentheses
stay open, to the place below the preamble. An order lists, for each new position, the old index of
the line that goes there.
-/

namespace LineLint

namespace Relocation

/-- Open minus closed parentheses in the code of a line. -/
def parenBalance (style : LiteralStyle) (line : Text) : Int :=
  let code := style.codeMask line
  Int.ofNat (code.count '(') - Int.ofNat (code.count ')')

def startsStatement (pattern : Pattern) (line : Text) : Bool :=
  !line.head?.any isBlank && pattern.matchesStart line

/-- Whether each line from here on is moved up, given the balance left open by a moved statement.
-/
def movedFrom (pattern : Pattern) (style : LiteralStyle) (balance : Int) : List Text → List Bool
  | [] => []
  | line :: rest =>
      if 0 < balance then
        true :: movedFrom pattern style (balance + parenBalance style line) rest
      else if startsStatement pattern line then
        true :: movedFrom pattern style (parenBalance style line) rest
      else false :: movedFrom pattern style 0 rest

/-- The preamble, then the moved lines, then the rest, each in their old order. -/
def order (pattern : Pattern) (style : LiteralStyle) (lines : List Text) : List Nat :=
  let comment := match style.lineComment with
    | some (c :: mark) => c :: mark
    | _ => ['#']
  let top := leadingPreamble comment lines
  let moved := (movedFrom pattern style 0 (lines.drop top)).zipIdx top
  List.range top ++ (moved.filter (·.1)).map (·.2) ++ (moved.filter fun m => !m.1).map (·.2)

/-- The new position of an old index; of an index listed twice, the last. -/
def newPosition? (order : List Int) (index : Int) : Option Nat :=
  ((order.zipIdx.filter fun entry => entry.1 == index).getLast?).map (·.2)

/-- Moves a diagnostic to the new position of its line; one whose line is not in the order stays.
-/
def remap (order : List Int) (d : Diagnostic) : Diagnostic :=
  match newPosition? order (d.line - 1) with
  | some position => { d with line := position + 1 }
  | none => d

end Relocation

end LineLint
