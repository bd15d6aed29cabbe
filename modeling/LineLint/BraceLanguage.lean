import LineLint.PatternSearch

/-!
# Declarations of brace languages

Patterns that the languages with typed declarations and braces share: modifiers before a method, a
type with a name, and the parameter list of a method.
-/

namespace LineLint

namespace BraceLanguage

open Pattern

def declaredName : Pattern := group "name" Pattern.name

/-- A type word, some blanks, and the declared name. -/
def namedAfter (kinds : List String) : Pattern :=
  wordEdge ++ words kinds ++ blanks1 ++ declaredName

def modifiersBefore (modifiers : List String) : Pattern := star (words modifiers ++ blanks1)

/-- The type of a method and its name before an opening parenthesis. -/
def methodName : Pattern :=
  group "type" (nameStart ++ star (one fun c => isWordChar c || "<>,[]?".toList.contains c)) ++
    blanks1 ++ declaredName ++ blanks ++ char '('

/-- A method with its parameter list. -/
def methodParameters : Pattern :=
  start ++ blanks ++ star (plus wordChar ++ blanks1) ++
    group "type" (plus (one fun c => isWordChar c || "<>[],?".toList.contains c)) ++ blanks1 ++
    name ++ blanks ++ char '(' ++ group "params" (star (noneOf ")")) ++ char ')'

end BraceLanguage

end LineLint
