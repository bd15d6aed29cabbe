import LineLint.Casing
import LineLint.Declaration
import LineLint.Rule

/-!
# Naming conventions

The names that certain constructs declare follow a casing convention. The fix converts the name on
its declaring line; leading underscores are kept, and a name is left alone if it is a keyword or if
the conversion would change nothing or leave nothing.
-/

namespace LineLint

/-- A construct and the conventions that the name it declares may follow. -/
structure NamingTarget where
  kind : String
  pattern : Pattern
  accepted : List Convention
  convention : Convention
  /-- Names that the construct may have whatever their casing. -/
  exempt : Option Pattern := none

structure NamingConvention where
  targets : List NamingTarget
  keywords : List Text := []
  style : LiteralStyle := {}

namespace NamingConvention

/-- The name to use instead of a declared one, if it has to change. -/
def fixedName? (r : NamingConvention) (t : NamingTarget) (declared : Text) : Option Text :=
  let core := Identifier.dropUnderscores declared
  let fixed := Identifier.leadingUnderscores declared ++ t.convention.convert core
  if r.keywords.contains declared || t.exempt.any (fun p => p.occursIn declared) ||
      core.isEmpty || t.accepted.any (fun c => c.holds core) || fixed == declared ||
      (Identifier.dropUnderscores fixed).isEmpty then none
  else some fixed

/-- The declared name of a target and what it should be. -/
def violation? (r : NamingConvention) (masked : Text) (t : NamingTarget) :
    Option (NamingTarget × Text × Text) := do
  let m ← t.pattern.search? masked
  if Declaration.followsStatementWord m || Declaration.followsModifier m then none
  else (r.fixedName? t (m.text "name")).map fun fixed => (t, m.text "name", fixed)

def check (r : NamingConvention) (index : Nat) (line : Text) : List Finding :=
  let stripped := line.trim
  if stripped.isEmpty || r.style.isCommentLine stripped then []
  else
    let masked := r.style.maskLiterals (r.style.splitComment line).1
    match r.targets.findSome? (r.violation? masked) with
    | none => []
    | some (t, declared, fixed) =>
        [{ index
           replacement := r.style.replaceWord line declared fixed
           fields := [("kind", t.kind.toList), ("name", declared),
             ("convention", t.convention.name.toList), ("fixed", fixed)] }]

def rule (r : NamingConvention) : Rule :=
  .ofCheck .namingConvention ⟨"namingConvention", "style", "policy"⟩ (Rule.eachLine r.check)

end NamingConvention

end LineLint
