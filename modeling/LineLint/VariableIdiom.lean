import LineLint.LineScan
import LineLint.Rule

/-!
# Idioms of declarations and conditions

A local with a primitive type and an initializer can be declared with `var` in one language, while
another prefers `let` to `var`. A run of equals signs in a condition is a mistyped comparison.
-/

namespace LineLint

namespace VarUsage

def types : List String := ["int", "string", "bool", "double", "float", "char"]

/-- A primitive type, a name, and a single equals sign. -/
def declaration : Pattern :=
  .start ++ .group "type" (.words types) ++ .blanks1 ++ .name ++ .blanks ++ .char '=' ++
    .notBeforeAny "="

def check (style : LiteralStyle) (index : Nat) (line : Text) : List Finding :=
  let indent := line.indentation
  match declaration.matchStart? ((style.maskLiterals line).drop indent.length) with
  | none => []
  | some m =>
      let type := m.text "type"
      [{ index
         replacement := indent ++ "var".toList ++ line.drop (indent.length + type.length)
         fields := [("type", type)] }]

def rule (style : LiteralStyle) : Rule :=
  .ofCheck .varUsage ⟨"csharpVarUsage", "style", "policy"⟩ (Rule.eachLine (check style))

end VarUsage

namespace VarDeclaration

/-- The keyword `var` before a name or a pattern of names. -/
def declaration : Pattern :=
  .notAfter (fun c => isWordChar c || c == '$' || c == '.') ++ .text "var" ++ .blanks1 ++
    .one fun c => isAsciiLetter c || ['_', '$', '[', '{'].contains c

def check (style : LiteralStyle) (index : Nat) (line : Text) : List Finding :=
  let (code, comment) := style.splitComment line
  if declaration.occursIn (style.maskLiterals code) then
    [{ index, replacement := style.replaceWord code "var".toList "let".toList ++ comment }]
  else []

def rule (style : LiteralStyle) : Rule :=
  .ofCheck .varDeclaration ⟨"jsVarDeclaration", "style", "policy"⟩ (Rule.eachLine (check style))

end VarDeclaration

namespace RedundantEquals

def condition : Pattern :=
  .wordEdge ++ .words ["if", "while", "for"] ++ .blanks ++ .char '('

/-- A comparison operator with more equals signs behind it. -/
def equalsRun : Pattern := .text "==" ++ .plus (.blanks ++ .char '=')

def check (style : LiteralStyle) (index : Nat) (line : Text) : List Finding :=
  let (code, comment) := style.splitComment line
  let masked := style.maskLiterals code
  match condition.search? masked with
  | none => []
  | some m =>
      let stop := (LineScan.closingParen? masked (m.stop - 1)).getD masked.length
      let runs := equalsRun.findAll (Text.slice masked m.stop stop)
      if runs.isEmpty then []
      else
        let fixed := LiteralStyle.replaceMatches (code.drop m.stop) (fun _ => ['=', '=']) 0 runs
        [{ index, replacement := code.take m.stop ++ fixed ++ comment }]

def rule (style : LiteralStyle) : Rule :=
  .ofCheck .redundantEquals ⟨"csharpRedundantEquals", "correctness", "heuristic"⟩
    (Rule.eachLine (check style))

end RedundantEquals

end LineLint
