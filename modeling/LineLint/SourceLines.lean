import LineLint.Text

/-!
# Source lines

A text split into lines, together with what is needed to put it back: the line terminator and
whether one ends the text. A terminator at the very end of a text closes its last line and opens no
further one, and one carriage return at the end of a line belongs to the terminator.
-/

namespace LineLint

structure SourceLines where
  lines : List Text
  newline : Text := ['\n']
  trailingNewline : Bool := false

namespace SourceLines

def dropReturn (line : Text) : Text := if line.getLast? == some '\r' then line.dropLast else line

def ofText (t : Text) : SourceLines :=
  if t.isEmpty then { lines := [] }
  else
    let trailing := t.getLast? == some '\n'
    let parts := Text.splitOn '\n' t
    { lines := (if trailing then parts.dropLast else parts).map dropReturn
      newline := if Text.includes t ['\r', '\n'] then ['\r', '\n'] else ['\n']
      trailingNewline := trailing }

/-- Other lines in the place of the source's own. -/
def renderWith (s : SourceLines) (lines : List Text) : Text :=
  if lines.isEmpty then []
  else Text.joinWith s.newline lines ++ (if s.trailingNewline then s.newline else [])

def render (s : SourceLines) : Text := s.renderWith s.lines

end SourceLines

end LineLint
