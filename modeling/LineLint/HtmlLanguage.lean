import LineLint.DocumentStructure
import LineLint.EmptyLine
import LineLint.IndentationStep
import LineLint.Profile
import LineLint.TagChecks
import LineLint.TagNesting
import LineLint.TagSpelling

/-!
# HTML

The profile and the rules for HTML, a language without literals, comments of its own, or keywords.
-/

namespace LineLint

namespace Html

open Pattern

/-- An end tag of a common element. -/
def closingTag : Pattern :=
  text "</" ++
    (choice (["html", "head", "body", "title", "div", "span", "p", "a", "ul", "ol", "li", "table",
        "thead", "tbody", "tr", "td", "th", "form", "label", "button", "section", "article", "nav",
        "header", "footer", "main"].map caseless) |||
      (caseless "h" ++ oneOf "123456") |||
      choice (["script", "style", "select", "option", "textarea"].map caseless)) ++
    blanks ++ char '>'

/-- An element on one line that holds text only. -/
def pairedTag : Pattern :=
  char '<' ++ group "name" Tag.tagName ++ edge (.before fun c => isBlank c || c == '>') ++
    upTo 200 (noneOf "<>\n") ++ char '>' ++ upTo 200 (noneOf "<\n") ++ text "</" ++
    again "name" (· == ·) ++ char '>'

def profile : Profile where
  id := "html"
  displayName := "HTML"
  extensions := [".html", ".htm"]
  keywords := []
  signals := {
    positive := [.pattern (caseless "<!DOCTYPE"), .word "<html", .word "<head", .word "<body",
      .word "<div", .word "<p>", .pattern closingTag, .pattern pairedTag]
    negative := ["<?xml", "<?php", "<%", "public class", "using ", "def ", "function "].map
      Signal.word }
  terminator := none
  style := { quotes := [], lineComment := none, blockComments := false }

def rules : List Rule :=
  [EmptyLine.rule,
   DocumentStructure.rule,
   TagNesting.rule,
   TagCase.rule,
   AttributeQuotes.rule,
   IndentationStep.rule
     { unit := profile.indentUnit, style := profile.style, continuations := false },
   EmptyElement.rule,
   ImageDimensions.rule,
   TagSpelling.rule {},
   TableStructure.rule,
   RequiredAttribute.rule]

end Html

end LineLint
