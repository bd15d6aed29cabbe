import LineLint.LiteralMask
import LineLint.Rule

/-!
# Comparisons

Checks on comparison operators: equality with a null literal is written with `is`, loose equality
is made strict, and a comparison with too many equals signs is cut down to one operator.
-/

namespace LineLint

namespace NullComparison

/-- An equality operator and the literal after it, with the blanks before both. -/
def pattern (literal : Text) : Pattern :=
  .blanks ++ .group "operator" (.words ["==", "!="]) ++ .blanks ++ .textPattern literal ++
    .notBefore LiteralStyle.isNamePart

def isWord (m : Match) : Text :=
  if m.text "operator" == ['=', '='] then "is".toList else "is not".toList

def check (style : LiteralStyle) (literal : Text) (index : Nat) (line : Text) : List Finding :=
  let (code, comment) := style.splitComment line
  match (pattern literal).findAll (style.maskLiterals code) with
  | [] => []
  | m :: ms =>
      let new (m : Match) : Text := [' '] ++ isWord m ++ [' '] ++ literal
      [{ index
         replacement := LiteralStyle.replaceMatches code new 0 (m :: ms) ++ comment
         fields := [("operator", isWord m ++ [' '] ++ literal)] }]

def noneRule (style : LiteralStyle) : Rule :=
  .ofCheck .noneComparison ⟨"pythonNoneComparison", "correctness", "policy"⟩
    (Rule.eachLine (check style "None".toList))

def nullRule (style : LiteralStyle) : Rule :=
  .ofCheck .nullComparison ⟨"csharpNullComparison", "style", "policy"⟩
    (Rule.eachLine (check style "null".toList))

end NullComparison

namespace StrictEquality

/-- A loose operator, the strict one for it, and the places where it stands alone. -/
structure Tightening where
  loose : String
  strict : String
  pattern : Pattern

def tightenings : List Tightening :=
  [⟨"==", "===", .notAfterAny "=!<>" ++ .text "==" ++ .notBeforeAny "="⟩,
   ⟨"!=", "!==", .text "!=" ++ .notBeforeAny "="⟩]

def check (style : LiteralStyle) (index : Nat) (line : Text) : List Finding :=
  let (code, comment) := style.splitComment line
  let masked := style.maskLiterals code
  tightenings.filterMap fun t =>
    let ms := t.pattern.findAll masked
    if ms.isEmpty then none
    else some {
      index
      replacement := LiteralStyle.replaceMatches code (fun _ => t.strict.toList) 0 ms ++ comment
      fields := [("strict", t.strict.toList), ("loose", t.loose.toList)] }

def rule (style : LiteralStyle) : Rule :=
  .ofCheck .strictEquality ⟨"jsStrictEquality", "correctness", "policy"⟩
    (Rule.eachLine (check style))

end StrictEquality

end LineLint
