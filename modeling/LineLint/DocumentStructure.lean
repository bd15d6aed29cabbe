import LineLint.Rule
import LineLint.Tag

/-!
# Structure of a document

A document has a doctype, an `html` element, a head with a title, and a body, in that order. Only a
missing doctype has a fix, which puts it above the first line that is not blank.
-/

namespace LineLint

namespace DocumentStructure

def doctype : Pattern := .caseless "<!DOCTYPE" ++ .blanks1 ++ .caseless "html" ++ .wordEdge

def startOf (name : String) : Pattern := .caseless "<" ++ .caseless name ++ .wordEdge

def headEnd : Pattern := .caseless "</head" ++ .blanks ++ .char '>'

/-- A title element, which may go over several lines. -/
def title : Pattern :=
  .caseless "<title" ++ .wordEdge ++ .star (.noneOf ">") ++ .char '>' ++
    .lazyStar (.one fun _ => true) ++ .caseless "</title" ++ .blanks ++ .char '>'

/-- The first line that holds a pattern. -/
def firstLine? (lines : List Text) (p : Pattern) : Option Nat := lines.findIdx? p.occursIn

def missing (index : Nat) (element hint : String) : Finding where
  index := index
  fields := [("element", element.toList)]
  hint := hint.toList

def misplaced (index : Nat) (message hint : String) : Finding where
  index := index
  message := message.toList
  hint := hint.toList

/-- The lines on which the parts of a document start. -/
structure Skeleton where
  first : Nat
  doctype : Option Nat
  html : Option Nat
  head : Option Nat
  body : Option Nat
  headEnd : Option Nat
  hasTitle : Bool

def skeleton (first : Nat) (blanked : List Text) : Skeleton where
  first := first
  doctype := firstLine? blanked doctype
  html := firstLine? blanked (startOf "html")
  head := firstLine? blanked (startOf "head")
  body := firstLine? blanked (startOf "body")
  headEnd := firstLine? blanked headEnd
  hasTitle := title.occursIn (Text.joinWith ['\n'] blanked)

def missingParts (s : Skeleton) (firstLine : Text) : List Finding :=
  let ifNone (part : Option Nat) (f : Finding) : List Finding := if part.isNone then [f] else []
  ifNone s.doctype
      { missing s.first "DOCTYPE declaration" "Add <!DOCTYPE html> at the beginning" with
        replacement := "<!DOCTYPE html>\n".toList ++ firstLine.trim } ++
    ifNone s.html (missing s.first "<html> tag" "Add <html> tag") ++
    ifNone s.head
      (missing (s.html.getD s.first) "<head> section" "Add <head> section inside <html>") ++
    ifNone s.body
      (missing ((s.headEnd.or s.html).getD s.first) "<body> section"
        "Add <body> section after </head>")

def misplacedParts (s : Skeleton) : List Finding :=
  let titleless := match s.head with
    | some head =>
        if s.hasTitle then []
        else [missing head "<title> in <head>" "Add <title>Document</title> inside <head>"]
    | none => []
  let lateDoctype := match s.doctype, s.html with
    | some doctype, some html =>
        if html < doctype then
          [misplaced html "DOCTYPE should be before <html>" "Move DOCTYPE to the first line"]
        else []
    | _, _ => []
  let lateHead := match s.head, s.body with
    | some head, some body =>
        if body < head then
          [misplaced body "<head> should be before <body>" "Move <head> section before <body>"]
        else []
    | _, _ => []
  titleless ++ lateDoctype ++ lateHead

def check (lines : List Text) : List Finding :=
  match lines.findIdx? fun line => !line.allBlank with
  | none => []
  | some first =>
      let s := skeleton first (MarkupComment.blank lines)
      missingParts s (lines.getD first []) ++ misplacedParts s

def rule : Rule :=
  .ofCheck .documentStructure ⟨"htmlDocumentStructure", "correctness", "heuristic"⟩ check

end DocumentStructure

end LineLint
