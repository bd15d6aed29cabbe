import LineLint.LetterCase

/-!
# Diagnostics

A diagnostic is a finding about one line, counted from 1 in the text that was inspected. Its
replacement says how to mend the line: no replacement offers no fix, an empty one deletes the line,
and any other takes its place, as several lines if it holds newlines.
-/

namespace LineLint

structure Diagnostic where
  code : String
  message : Text
  line : Int
  category : String
  suggestion : Text
  snippet : Text := []
  replacement : Option Text := none
  severity : String := "warning"
  deriving DecidableEq

namespace Diagnostic

def hasFix (d : Diagnostic) : Bool := d.replacement.isSome

def isDeletion (d : Diagnostic) : Bool := d.replacement == some []

/-- The replacement, empty if there is none. -/
def newText (d : Diagnostic) : Text := d.replacement.getD []

/-- Whether the indentation of the replacement is meant, which the category tells. -/
def setsIndent (d : Diagnostic) : Bool :=
  let folded := Text.fold d.category.toList
  folded == "formatting".toList || folded == "indentation".toList

end Diagnostic

def hasErrors (ds : List Diagnostic) : Bool := ds.any fun d => d.severity == "error"

def fixable (ds : List Diagnostic) : List Diagnostic := ds.filter (·.hasFix)

/-- Sorted by line; diagnostics of one line keep their order. -/
def sortByLine (ds : List Diagnostic) : List Diagnostic :=
  ds.mergeSort fun d e => d.line ≤ e.line

/-- One more entry for a category, in the order in which categories are first seen. -/
def countOne (category : String) : List (String × Nat) → List (String × Nat)
  | [] => [(category, 1)]
  | (c, n) :: rest => if c == category then (c, n + 1) :: rest else (c, n) :: countOne category rest

def countByCategory (ds : List Diagnostic) : List (String × Nat) :=
  ds.foldl (fun counts d => countOne d.category counts) []

end LineLint
