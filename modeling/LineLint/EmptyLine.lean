import LineLint.Blank
import LineLint.Rule

/-!
# Empty lines

Every blank line is reported, and its fix deletes it.
-/

namespace LineLint

namespace EmptyLine

def check (index : Nat) (line : Text) : List Finding :=
  if line.allBlank then [{ index, replacement := some [] }] else []

def rule : Rule :=
  .ofCheck .emptyLine ⟨"formatEmptyLine", "style", "policy"⟩ (Rule.eachLine check)

end EmptyLine

end LineLint
