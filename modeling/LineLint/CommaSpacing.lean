import LineLint.OperatorSpacing

/-!
# Comma spacing

A comma is followed by a space, unless it is protected, ends the code, stands before a blank or a
closing bracket, or separates two digits.
-/

namespace LineLint

structure CommaSpacing where
  style : LiteralStyle := {}
  generics : Bool := true
  skipped : List Text := []

namespace CommaSpacing

/-- Whether a space belongs between a comma and the character after it. -/
def needsSpace (previous : Option Char) (next : Char) : Bool :=
  !isBlank next && !([')', ']', '}'].contains next) && !(previous.any isDigit && isDigit next)

/-- The code with its missing spaces; `previous` is the masked character before the cells. -/
def insertSpaces (previous : Option Char) : List Cell → Text
  | [] => []
  | [cell] => [cell.code]
  | cell :: next :: rest =>
      let tail := insertSpaces (some cell.masked) (next :: rest)
      if cell.code == ',' && !cell.isProtected && needsSpace previous next.masked then
        cell.code :: ' ' :: tail
      else cell.code :: tail

def normalize (r : CommaSpacing) (line : Text) : Text :=
  let (code, comment) := r.style.splitComment line
  insertSpaces none (Cell.ofCode r.style r.generics (fun _ => none) code) ++ comment

def check (r : CommaSpacing) (index : Nat) (line : Text) : List Finding :=
  if OperatorSpacing.skips r.style r.skipped line then []
  else
    let fixed := r.normalize line
    if fixed == line then [] else [{ index, replacement := fixed }]

def rule (r : CommaSpacing) : Rule :=
  .ofCheck .commaSpacing ⟨"formatCommaSpacing", "style", "policy"⟩ (Rule.eachLine r.check)

end CommaSpacing

end LineLint
