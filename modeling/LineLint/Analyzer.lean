import LineLint.Diagnostic
import LineLint.Options
import LineLint.Profile
import LineLint.Rule
import LineLint.SourceLines

/-!
# Analyzers

An analyzer is a language profile with its rules in order. A run over a text leaves out the rules
whose code is ignored and collects the diagnostics of the others.
-/

namespace LineLint

structure Analyzer where
  profile : Profile
  rules : List Rule

structure LintResult where
  language : Option String
  diagnostics : List Diagnostic
  ruleCount : Nat := 0

namespace Analyzer

def id (a : Analyzer) : String := a.profile.id

def displayName (a : Analyzer) : String := a.profile.displayName

def activeRules (options : LintOptions) (rules : List Rule) : List Rule :=
  rules.filter fun r => !options.ignore.contains r.code.toList

def lint (a : Analyzer) (options : LintOptions) (text : Text) : LintResult :=
  let rules := activeRules options a.rules
  ⟨some a.id, Rule.runAll rules (SourceLines.ofText text).lines, rules.length⟩

def analyze (a : Analyzer) (options : LintOptions) (text : Text) : List Diagnostic :=
  (a.lint options text).diagnostics

/-- An extension decides where there is one, and the content otherwise. -/
def canHandle (a : Analyzer) (text extension : Text) : Bool :=
  if extension.isEmpty then a.profile.signals.recognize text
  else a.profile.handlesExtension extension

end Analyzer

end LineLint
