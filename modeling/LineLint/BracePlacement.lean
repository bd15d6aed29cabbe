import LineLint.LineScan
import LineLint.Rule

/-!
# Placement of opening braces

One style puts an opening brace on a line of its own, below the header of its block. The other puts
it at the end of the header; its findings come in pairs, one that appends the brace to the header
and one that deletes the line of the brace.
-/

namespace LineLint

structure BraceOwnLine where
  style : LiteralStyle := {}
  exemptStarts : List Text := []
  /-- Arrows before a brace that opens the body of a function value. -/
  lambdaArrows : List Text := [['=', '>']]

namespace BraceOwnLine

/-- A block that is assigned, such as an initializer. -/
def assignedBlock : Pattern :=
  .notAfterAny "=!<>" ++ .char '=' ++ .notBeforeAny "=>" ++ .star (.noneOf ";") ++
    .char '{' ++ .stop

/-- A function value with a capture list, up to the brace of its body. -/
def lambdaCapture : Pattern :=
  .char '[' ++ .star (.noneOf "]") ++ .char ']' ++ .blanks ++
    .opt (.char '(' ++ .star (.noneOf ")") ++ .char ')') ++ .blanks ++
    .opt (.text "mutable" ++ .blanks) ++
    .opt (.text "->" ++ .blanks ++
      .plus (.one fun c => isWordChar c || c == ':' || c == '<' || c == '>') ++ .blanks) ++
    .char '{' ++ .stop

def isExempt (r : BraceOwnLine) (masked : Text) : Bool :=
  let body := Text.trimRight masked.dropLast
  masked.startsWithAny r.exemptStarts ||
    masked.startsWithAny (["return \x7b", "return\x7b", "@interface"].map String.toList) ||
    !body.getLast?.any (fun c => !"([,:?=".toList.contains c) ||
    body.endsWithAny r.lambdaArrows || assignedBlock.occursIn masked ||
    lambdaCapture.occursIn masked

def check (r : BraceOwnLine) (index : Nat) (line : Text) : List Finding :=
  let masked := Text.trim (r.style.codeMask line)
  if masked.length ≤ 1 || masked.getLast? != some '{' || masked.head? == some '{' ||
      masked.head? == some '}' || r.isExempt masked then []
  else
    let (code, comment) := r.style.splitComment line
    let header := Text.trimRight (Text.trim code).dropLast
    let header := if comment.isEmpty then header else header ++ [' '] ++ Text.trim comment
    [{ index, replacement := header ++ ['\n', '{'] }]

def rule (r : BraceOwnLine) : Rule :=
  .ofCheck .bracePlacement ⟨"formatBraceOwnLine", "style", "policy"⟩ (Rule.eachLine r.check)

end BraceOwnLine

namespace BraceSameLine

/-- Whether a brace can be appended to a header line. -/
def takesBrace (style : LiteralStyle) (header : Text) : Bool :=
  let code := style.codeMask header
  code.getLast?.any (fun c => !";\x7b\x7d,([".toList.contains c) &&
    !style.isCommentLine header.trim && (style.splitComment header).2.isEmpty

def check (style : LiteralStyle) (lines : List Text) : List Finding :=
  Rule.eachLine (fun index line =>
    if line.trim != ['{'] then []
    else match LineScan.lastCode? lines index with
      | none => []
      | some above =>
          let header := lines.getD above []
          if !takesBrace style header then []
          else [{ index := above, replacement := header.trimRight ++ [' ', '{'] },
            { index, replacement := some [] }]) lines

def rule (style : LiteralStyle) : Rule :=
  .ofCheck .braceSameLine ⟨"formatBraceSameLine", "style", "policy"⟩ (check style)

end BraceSameLine

end LineLint
