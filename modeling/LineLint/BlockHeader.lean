import LineLint.Indentation
import LineLint.LineScan
import LineLint.Rule

/-!
# Block headers

In a language whose blocks are indented, a header is a line that starts with a block keyword and
ends with a colon. The checks ask for the colon, for a condition, for an indented body, and for a
body that does something. Headers that go on with the next line are not judged.
-/

namespace LineLint

/-- A header line with its keyword and its masked code. -/
structure BlockHeader where
  index : Nat
  keyword : Text
  code : Text

namespace BlockHeader

def pattern : Pattern :=
  .start ++ .opt (.text "async" ++ .blanks1) ++
    .group "keyword" (.words ["if", "elif", "else", "for", "while", "def", "class", "with", "try",
      "except", "finally"]) ++ .wordEdge

def ofLine? (style : LiteralStyle) (index : Nat) (line : Text) : Option BlockHeader := do
  let code := Text.trim (style.codeMask line)
  let m ← pattern.matchStart? code
  if 0 < LineScan.bracketBalance code || code.getLast? == some '\\' then none
  else some ⟨index, m.text "keyword", code⟩

def all (style : LiteralStyle) (lines : List Text) : List BlockHeader :=
  (lines.zip (LineScan.continued style lines)).zipIdx.filterMap fun ((line, continued), index) =>
    if continued then none else ofLine? style index line

/-- Whether a colon that is not part of `:=` stands outside brackets. -/
def hasColon (depth : Int) : Text → Bool
  | [] => false
  | c :: rest =>
      if ['(', '[', '{'].contains c then hasColon (depth + 1) rest
      else if [')', ']', '}'].contains c then hasColon (depth - 1) rest
      else (c == ':' && depth == 0 && rest.head? != some '=') || hasColon depth rest

def conditionKeywords : List Text := ["if", "elif", "while"].map String.toList

def endsWithColon (h : BlockHeader) : Bool := h.code.getLast? == some ':'

end BlockHeader

namespace MissingColon

/-- Puts a colon behind the code, before the blanks and the comment that follow it. -/
def addColon (style : LiteralStyle) (line : Text) : Text :=
  let (code, comment) := style.splitComment line
  let body := code.trimRight
  body ++ [':'] ++ code.drop body.length ++ comment

def check (style : LiteralStyle) (lines : List Text) : List Finding :=
  (BlockHeader.all style lines).filterMap fun h =>
    if BlockHeader.hasColon 0 h.code ||
        (BlockHeader.conditionKeywords.contains h.keyword && h.code == h.keyword) then none
    else some {
      index := h.index
      replacement := addColon style (lines.getD h.index [])
      fields := [("keyword", h.keyword)] }

def rule (style : LiteralStyle) : Rule :=
  .ofCheck .missingColon ⟨"syntaxMissingColon", "correctness", "policy"⟩ (check style)

end MissingColon

namespace IndentedBlock

/-- The first line of code from `start` on. -/
def firstBody? (style : LiteralStyle) (lines : List Text) (start : Nat) : Option Nat :=
  ((lines.drop start).findIdx? fun line =>
    let stripped := line.trim
    !stripped.isEmpty && !style.isCommentLine stripped).map (· + start)

def checkHeader (unit : Int) (style : LiteralStyle) (lines : List Text) (h : BlockHeader) :
    Option Finding :=
  let header := lines.getD h.index []
  let own := Indentation.lineWidth unit header
  if !h.endsWithColon then none
  else match firstBody? style lines (h.index + 1) with
    | none => some {
        index := h.index
        replacement := header.trim ++ ['\n'] ++ Text.spaces unit ++ "pass".toList
        fields := [("unit", Text.ofInt unit)] }
    | some i =>
        let body := lines.getD i []
        if own < Indentation.lineWidth unit body then none
        else some {
          index := i
          replacement := Text.spaces (own + unit) ++ body.trim
          fields := [("unit", Text.ofInt unit)] }

def check (unit : Int) (style : LiteralStyle) (lines : List Text) : List Finding :=
  (BlockHeader.all style lines).filterMap (checkHeader unit style lines)

def rule (unit : Int) (style : LiteralStyle) : Rule :=
  .ofCheck .indentedBlock ⟨"syntaxExpectedIndentedBlock", "correctness", "policy"⟩
    (check unit style)

end IndentedBlock

namespace MissingCondition

/-- The bare keyword, with or without its colon. -/
def bareKeyword (keyword : Text) : Pattern :=
  .start ++ .textPattern keyword ++ .blanks ++ .opt (.char ':') ++ .stop

def inWord : Pattern := .wordEdge ++ .text "in" ++ .wordEdge

def checkHeader (style : LiteralStyle) (lines : List Text) (h : BlockHeader) : Option Finding :=
  if BlockHeader.conditionKeywords.contains h.keyword &&
      (bareKeyword h.keyword).matchesStart h.code then
    let line := lines.getD h.index []
    let comment := (style.splitComment line).2
    let trailer := if comment.isEmpty then [] else [' ', ' '] ++ comment.trim
    some {
      index := h.index
      replacement := line.indentation ++ h.keyword ++ " condition:".toList ++ trailer
      fields := [("keyword", h.keyword)] }
  else if h.keyword == "for".toList && !inWord.occursIn h.code then
    some {
      index := h.index
      message := "Invalid for loop syntax: expected 'for item in iterable:'".toList
      fields := [("keyword", h.keyword)] }
  else none

def check (style : LiteralStyle) (lines : List Text) : List Finding :=
  (BlockHeader.all style lines).filterMap (checkHeader style lines)

def rule (style : LiteralStyle) : Rule :=
  .ofCheck .missingCondition ⟨"syntaxMissingCondition", "correctness", "policy"⟩ (check style)

end MissingCondition

namespace EmptyIf

/-- The masked statements below a header, up to the first line that is not indented deeper. -/
def body (unit : Int) (style : LiteralStyle) (own : Nat) : List Text → List Text
  | [] => []
  | line :: rest =>
      let stripped := line.trim
      if stripped.isEmpty then body unit style own rest
      else if Indentation.lineWidth unit line ≤ own then []
      else if style.isCommentLine stripped then body unit style own rest
      else Text.trim (style.codeMask line) :: body unit style own rest

def idleStatements : List Text := ["pass".toList, "...".toList]

def isEmpty (unit : Int) (style : LiteralStyle) (lines : List Text) (h : BlockHeader) : Bool :=
  let own := Indentation.lineWidth unit (lines.getD h.index [])
  let statements := body unit style own (lines.drop (h.index + 1))
  (h.keyword == "if".toList || h.keyword == "elif".toList) && h.endsWithColon &&
    !statements.isEmpty && statements.all idleStatements.contains

def check (unit : Int) (style : LiteralStyle) (lines : List Text) : List Finding :=
  (BlockHeader.all style lines).filterMap fun h =>
    if isEmpty unit style lines h then some { index := h.index } else none

def rule (unit : Int) (style : LiteralStyle) : Rule :=
  .ofCheck .emptyIf ⟨"qualityEmptyIf", "heuristic", "heuristic"⟩ (check unit style)

end EmptyIf

end LineLint
