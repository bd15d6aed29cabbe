import LineLint.Blank

/-!
# Preamble

The lines before the first line of code: blank lines, comments, and at most one documentation block
between triple quotes.
-/

namespace LineLint

def tripleQuotes : List Text := [['"', '"', '"'], ['\'', '\'', '\'']]

/-- The number of lines up to and including the first one that holds `quote`, or all of them. -/
def docBlockLength (quote : Text) : List Text → Nat
  | [] => 0
  | line :: rest => if Text.includes line quote then 1 else docBlockLength quote rest + 1

/-- Whether a stripped line that starts with a triple quote also ends with one. -/
def closesOnSameLine (quote stripped : Text) : Bool :=
  6 ≤ stripped.length && quote.isSuffixOf stripped

/-- The number of leading lines that are blank, comments or one documentation block. -/
def preambleFrom (comment : Text) (docSeen : Bool) (lines : List Text) : Nat :=
  match lines with
  | [] => 0
  | line :: rest =>
      let stripped := Text.trim line
      if stripped.isEmpty || comment.isPrefixOf stripped then
        preambleFrom comment docSeen rest + 1
      else
        let quote := stripped.take 3
        if docSeen || !tripleQuotes.contains quote then 0
        else if closesOnSameLine quote stripped then preambleFrom comment true rest + 1
        else
          let body := docBlockLength quote rest
          preambleFrom comment true (rest.drop body) + body + 1
termination_by lines.length
decreasing_by all_goals simp +arith [List.length_drop]

def leadingPreamble (comment : Text) (lines : List Text) : Nat := preambleFrom comment false lines

end LineLint
