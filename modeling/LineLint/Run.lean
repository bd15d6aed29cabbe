import LineLint.Fixing
import LineLint.Registry

/-!
# Runs

The operations on one text over the built-in registry: lint it, check it, and format it. Without an
analyzer for the text a run finds and changes nothing.
-/

namespace LineLint

/-- What a run is asked to do besides its text. -/
structure Request where
  analyzer : Option Text := none
  path : Option Text := none
  options : LintOptions := {}

structure CheckResult where
  language : Option String
  /-- Sorted by line. -/
  diagnostics : List Diagnostic
  hasErrors : Bool
  fixableCount : Nat

structure FormatResult where
  language : Option String
  text : Text
  applied : List Diagnostic
  /-- What is left to report after formatting. -/
  remaining : List Diagnostic
  changed : Bool
  skipped : List SkippedFix := []

namespace Profile

def fixSettings (p : Profile) : FixSettings := ⟨p.indentUnit, p.relocatable, p.style⟩

end Profile

namespace Run

def resolve (text : Text) (r : Request) : Except Fault (Option Analyzer) :=
  Registry.builtin.resolve text r.analyzer r.path

def lint (text : Text) (r : Request) : Except Fault LintResult := do
  match ← resolve text r with
  | none => return ⟨none, [], 0⟩
  | some a => return a.lint r.options text

def check (text : Text) (r : Request) : Except Fault CheckResult := do
  let result ← lint text r
  return {
    language := result.language
    diagnostics := sortByLine result.diagnostics
    hasErrors := LineLint.hasErrors result.diagnostics
    fixableCount := (fixable result.diagnostics).length }

/-- Formats a text with the given diagnostics, or with those of a lint run. -/
def formatWith (a : Analyzer) (options : LintOptions) (text : Text)
    (given : Option (List Diagnostic)) : FormatResult :=
  let planned := given.getD (a.analyze options text)
  let result := applyFixes a.profile.fixSettings text planned
  { language := some a.id
    text := result.text
    applied := result.applied
    remaining :=
      if options.verifyFixes then a.analyze options result.text
      else planned.filter fun d => !d.hasFix
    changed := result.text != text
    skipped := result.skipped }

def format (text : Text) (given : Option (List Diagnostic)) (r : Request) :
    Except Fault FormatResult := do
  match ← resolve text r with
  | some a => return formatWith a r.options text given
  | none =>
      if (given.getD []).isEmpty then
        return { language := none, text, applied := [], remaining := [], changed := false }
      else .error .noAnalyzerForFindings

def detect (text : Text) (path : Option Text) : Option String :=
  (Registry.builtin.select? text path).map (·.id)

def analyze (analyzer text : Text) : Except Fault (List Diagnostic) :=
  (Registry.builtin.get analyzer).map fun a => a.analyze {} text

/-- The text after the fixes of the given diagnostics. -/
def fix (analyzer text : Text) (ds : List Diagnostic) : Except Fault Text :=
  (Registry.builtin.get analyzer).map fun a => (applyFixes a.profile.fixSettings text ds).text

end Run

end LineLint
