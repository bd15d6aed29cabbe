import LineLint.Diagnostic
import LineLint.Fault

/-!
# Diagnostic specifications

A specification gives a code with its severity, its category and the templates of its message and
its hint. A template is filled from named fields; a field that is missing is a fault. A finding
names a line of the inspected text by index, so that the diagnostic made from it quotes that very
line.
-/

namespace LineLint

inductive Piece where
  | text (s : String)
  | slot (name : String)
  deriving DecidableEq

abbrev Template := List Piece

abbrev Fields := List (String × Text)

namespace Template

def fill (fields : Fields) : Template → Except Fault Text
  | [] => .ok []
  | .text s :: rest => (fill fields rest).map (s.toList ++ ·)
  | .slot name :: rest =>
      match fields.lookup name with
      | none => .error (.missingField name)
      | some value => (fill fields rest).map (value ++ ·)

end Template

structure Spec where
  code : String
  message : Template
  hint : Template
  severity : String := "warning"
  category : String := "Formatting"

/-- What a check has found on the line with the given index. A message or a hint of its own takes
the place of the template. -/
structure Finding where
  index : Nat
  replacement : Option Text := none
  fields : Fields := []
  message : Option Text := none
  hint : Option Text := none

namespace Spec

/-- A diagnostic at a line of one's own choice. The message is filled before the hint. -/
def diagnostic (spec : Spec) (line : Int) (snippet : Text) (f : Finding) :
    Except Fault Diagnostic := do
  let message ← match f.message with
    | some m => .ok m
    | none => spec.message.fill f.fields
  let hint ← match f.hint with
    | some h => .ok h
    | none => spec.hint.fill f.fields
  return { code := spec.code, message := message, line := line, category := spec.category,
           suggestion := hint, snippet := snippet, replacement := f.replacement,
           severity := spec.severity }

/-- The diagnostic for a finding in the given lines. -/
def report (spec : Spec) (lines : List Text) (f : Finding) : Except Fault Diagnostic :=
  match lines[f.index]? with
  | none => .error .listIndex
  | some line => spec.diagnostic (f.index + 1) line f

end Spec

end LineLint
