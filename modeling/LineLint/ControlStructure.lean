import LineLint.Indentation
import LineLint.LineScan
import LineLint.Rule

/-!
# Control structures

A control keyword is followed by a condition in parentheses and a body in braces. A body on the
same line is wrapped in braces, and a missing one is sketched; a body on the next line is only
reported.
-/

namespace LineLint

inductive BraceStyle where
  | ownLine | sameLine
  deriving DecidableEq

structure ControlStructure where
  braceStyle : BraceStyle := .ownLine
  style : LiteralStyle := {}
  placeholder : Text := "// code".toList
  unit : Int := 4

namespace ControlStructure

/-- A header of iteration over a range: the words `in` and `of`, or a single colon. -/
def rangeHeader : Pattern :=
  (.wordEdge ++ .words ["in", "of"] ++ .wordEdge) |||
    (.noneOf ":" ++ .char ':' ++ .noneOf ":")

def isForHeader (inner : Text) : Bool := inner.count ';' == 2 || rangeHeader.occursIn inner

def placeholderCondition (keyword : Text) : Text :=
  if keyword == "for".toList then "(init; condition; increment)".toList
  else if keyword == "foreach".toList then "(var item in collection)".toList
  else "(condition)".toList

/-- A control line cut into its header and what follows it. -/
structure Parts where
  keyword : Text
  header : Text
  after : Text
  hasParens : Bool
  /-- What stands between the parentheses. -/
  inner : Text := []

/-- The parts of the code of a line, unless it is no control line or its parenthesis stays open. -/
def parts? (body masked : Text) : Option Parts := do
  let m ← controlKeyword.matchStart? masked
  let keyword := m.text "keyword"
  let rest := Text.trimLeft (masked.drop m.stop)
  let restStart := masked.length - rest.length
  if rest.head? == some '(' then
    let close ← LineScan.closingParen? masked restStart
    return ⟨keyword, body.take (close + 1), Text.trim (body.drop (close + 1)), true,
      Text.slice masked (restStart + 1) close⟩
  else
    let condition := Text.trim (rest.takeWhile (· != '{'))
    let conditionText :=
      if condition.isEmpty then placeholderCondition keyword
      else ['('] ++ Text.slice body restStart (restStart + condition.length) ++ [')']
    return ⟨keyword, body.take m.stop ++ [' '] ++ conditionText,
      Text.trim (rest.dropWhile (· != '{')), false, []⟩

/-- Nothing but a terminator follows the header. -/
def isEmptyStatement (after : Text) : Bool :=
  after.getLast? == some ';' &&
    Text.allBlank (Text.dropRightWhile (· == ';') (after.dropWhile (· == ';')))

def isNested (r : ControlStructure) (line following : Text) : Except Fault Bool := do
  let own ← Indentation.measureLine r.unit line
  let nested ← Indentation.measureLine r.unit following
  return own < nested && !r.style.isCommentLine following.trim

/-- The indentation of a body. Here the unit is a number of characters and not a width of tabs, so
that other limits hold: what a text can have, and what is reasonable to store. -/
def bodyIndent (unit : Int) : Except Fault Text :=
  if 9223372036854775808 ≤ unit then .error .lengthRange
  else if 2147483648 ≤ unit then .error .outOfMemory
  else .ok (Text.spaces unit)

/-- The header with an empty body below it. -/
def skeleton (r : ControlStructure) (header trailer : Text) : Except Fault Text := do
  let opening := match r.braceStyle with
    | .ownLine => header ++ trailer ++ "\n\x7b\n".toList
    | .sameLine => header ++ " \x7b".toList ++ trailer ++ ['\n']
  return opening ++ (← bodyIndent r.unit) ++ r.placeholder ++ "\n\x7d".toList

def nestedHint (line : Nat) : Text :=
  "Wrap the statement on line ".toList ++ Text.ofInt line ++
    " in braces; a body on another line is not fixed automatically".toList

/-- The finding for a control line without a body behind its header. -/
def withoutBody (r : ControlStructure) (lines : List Text) (index : Nat) (line : Text) (p : Parts)
    (trailer : Text) : Except Fault (List Finding) := do
  let following := LineScan.nextCode? lines (index + 1)
  let next := (following.bind fun i => lines[i]?).getD []
  if next.trim.head? == some '{' then
    return if p.hasParens then [] else [{ index, replacement := p.header ++ trailer }]
  else match following with
    | some i =>
        if ← r.isNested line next then return [{ index, hint := nestedHint (i + 1) }]
        else return [{ index, replacement := ← r.skeleton p.header trailer }]
    | none => return [{ index, replacement := ← r.skeleton p.header trailer }]

def checkParts (r : ControlStructure) (lines : List Text) (index : Nat) (line : Text) (p : Parts)
    (trailer : Text) : Except Fault (List Finding) :=
  if p.hasParens && isEmptyStatement p.after then .ok []
  else if p.hasParens && p.keyword == "for".toList && !isForHeader p.inner then
    .ok [{ index
           message := "Invalid for loop header: expected 'init; condition; increment'".toList }]
  else if p.after.head? == some '{' then
    if p.hasParens then .ok []
    else .ok [{ index, replacement := p.header ++ [' '] ++ p.after ++ trailer }]
  else if !p.after.isEmpty then
    .ok [{ index
           replacement := p.header ++ " \x7b ".toList ++ p.after ++ " \x7d".toList ++ trailer }]
  else r.withoutBody lines index line p trailer

def checkLine (r : ControlStructure) (lines : List Text) (index : Nat) (line : Text) :
    Except Fault (List Finding) :=
  let (code, comment) := r.style.splitComment line
  let body := Text.trim code
  match parts? body (r.style.maskLiterals body) with
  | none => .ok []
  | some p =>
      let trailer := if comment.isEmpty then [] else ' ' :: Text.trim comment
      r.checkParts lines index line p trailer

def check (r : ControlStructure) (lines : List Text) : Except Fault (List Finding) :=
  Rule.eachLineOrFail (r.checkLine lines) lines

def rule (r : ControlStructure) : Rule :=
  .ofFindings .controlStructure ⟨"syntaxControlStructure", "correctness", "heuristic"⟩ r.check

end ControlStructure

end LineLint
