import LineLint.LineScan
import LineLint.Rule

/-!
# Statement terminators

A statement ends with the terminator of the language. Whether a line holds a whole statement is
judged by its masked code and by the line below it. A terminator right behind a control header is
one too many, since it empties the statement.
-/

namespace LineLint

structure Terminator where
  terminator : Text := [';']
  style : LiteralStyle := {}
  /-- Starts of lines that are directives and always need a terminator. -/
  directives : List Text := []
  exemptStarts : List Text := [['#'], ['@'], ['[']]

namespace Terminator

def blockHeader : Pattern :=
  .start ++ .words ["if", "else", "for", "foreach", "while", "do", "switch", "try", "catch",
    "finally", "case", "default", "lock", "unsafe", "fixed", "checked", "synchronized"] ++ .wordEdge

def typeDeclaration : Pattern :=
  .wordEdge ++ .words ["class", "struct", "interface", "enum", "namespace", "record", "template",
    "union"] ++ .wordEdge

/-- An equals sign, alone or in a compound assignment. -/
def assignment : Pattern :=
  .notAfterAny "=!<>" ++ .opt (.oneOf "-+*/%&|^" ||| .words ["<<", ">>", "??"]) ++ .char '=' ++
    .notBeforeAny "=>"

def callAtEnd : Pattern :=
  (.one fun c => isWordChar c || c == ']' || c == '>' || c == ')') ++ .blanks ++ .char '(' ++
    .star (.noneOf "\n") ++ .char ')' ++ .stop

def jump : Pattern :=
  .start ++ .words ["return", "break", "continue", "throw", "yield", "goto", "delete"] ++ .wordEdge

def increments : Pattern := .words ["++", "--"]

def postIncrement : Pattern :=
  .start ++ .plus (.one fun c => isWordChar c || c == '.' || c == '[' || c == ']') ++ .blanks ++
    increments ++ .stop

def preIncrement : Pattern :=
  .start ++ increments ++ .plus (.one fun c => isWordChar c || c == '.') ++ .stop

def creation : Pattern := .start ++ .text "new" ++ .blank

/-- A chain of stream insertions or extractions. -/
def streaming : Pattern :=
  .start ++ .plus (.one fun c => isWordChar c || [':', '.', '[', ']'].contains c) ++ .blanks ++
    .words ["<<", ">>"] ++ .blanks ++ .nonBlank

/-- A type and a name, and nothing else. -/
def bareDeclaration : Pattern :=
  .start ++ .nameStart ++
    .star (.one fun c => isWordChar c || ".:<>,[]*&?".toList.contains c) ++ .notAfterAny ":" ++
    .blanks1 ++ .name ++ .stop

def statements : List Pattern :=
  [assignment, callAtEnd, jump, postIncrement, preIncrement, creation, streaming, bareDeclaration]

def trailingOperators : Text := "\x7b\x7d(,[:\\+-*/%=&|<>?.".toList

def usingBlock : List Text := ["using (".toList, "using(".toList]

/-- Whether the masked code of a line holds a statement without its terminator. -/
def needsTerminator (r : Terminator) (code : Text) : Bool :=
  if r.terminator.isSuffixOf code then false
  else if code.getLast?.any trailingOperators.contains &&
      !code.endsWithAny [['+', '+'], ['-', '-']] then false
  else if code.startsWithAny r.directives then !code.startsWithAny usingBlock
  else if code.startsWithAny r.exemptStarts || code.head? == some '}' then false
  else if blockHeader.matchesStart code || code.startsWithAny usingBlock then false
  else if typeDeclaration.occursIn code && !code.contains '=' then false
  else if LineScan.bracketBalance code != 0 then false
  else statements.any fun p => p.occursIn code

/-- Starts of a line that goes on with the statement above it. -/
def continuations : List Text := ["\x7b", ".", "?", ":", "&&", "||", "+"].map String.toList

/-- Puts the terminator behind the code, before the blanks and the comment that follow it. -/
def terminate (r : Terminator) (line : Text) : Text :=
  let (code, comment) := r.style.splitComment line
  let body := code.trimRight
  body ++ r.terminator ++ code.drop body.length ++ comment

def checkLine (r : Terminator) (lines : List Text) (index : Nat) (line : Text)
    (continued : Bool) : List Finding :=
  let stripped := line.trim
  let code := Text.trim (r.style.codeMask line)
  if stripped.isEmpty || continued || r.style.isCommentLine stripped || code.isEmpty ||
      !r.needsTerminator code then []
  else
    let following := ((LineScan.nextCode? lines (index + 1)).bind fun i => lines[i]?).getD []
    if following.trim.startsWithAny continuations then []
    else [{ index, replacement := r.terminate line }]

def check (r : Terminator) (lines : List Text) : List Finding :=
  (lines.zip (LineScan.continued r.style lines)).zipIdx.flatMap fun ((line, continued), index) =>
    r.checkLine lines index line continued

def rule (r : Terminator) : Rule :=
  .ofCheck .missingTerminator ⟨"syntaxMissingTerminator", "correctness", "heuristic"⟩ r.check

end Terminator

namespace ExtraTerminator

def controlHead : Pattern :=
  .start ++ .opt (.text "else" ++ .blanks1) ++
    .group "keyword" (.words ["if", "for", "while", "switch"]) ++ .blanks ++ .char '('

/-- Whether the code line above an index ends a block, as before the condition of a `do` loop. -/
def closesBlock (style : LiteralStyle) (lines : List Text) (index : Nat) : Bool :=
  match LineScan.lastCode? lines index with
  | none => false
  | some above => (Text.trim (style.codeMask (lines.getD above []))).getLast? == some '}'

def checkLine (style : LiteralStyle) (lines : List Text) (index : Nat) (line : Text) :
    Option Finding := do
  let (code, comment) := style.splitComment line
  let masked := style.maskLiterals code
  let body := Text.trim masked
  let m ← controlHead.matchStart? body
  if body.getLast? != some ';' then none
  else if m.text "keyword" == "while".toList && closesBlock style lines index then none
  else
    let offset := masked.length - (Text.trimLeft masked).length
    let close ← LineScan.closingParen? masked (offset + m.stop - 1)
    if Text.trim (masked.drop (close + 1)) != [';'] then none
    else
      let trailer := if comment.isEmpty then [] else ' ' :: comment
      some { index, replacement := code.take (close + 1) ++ trailer }

def check (style : LiteralStyle) (lines : List Text) : List Finding :=
  Rule.eachLine (fun index line => (checkLine style lines index line).toList) lines

def rule (style : LiteralStyle) : Rule :=
  .ofCheck .extraTerminator ⟨"syntaxExtraTerminator", "correctness", "heuristic"⟩ (check style)

end ExtraTerminator

end LineLint
