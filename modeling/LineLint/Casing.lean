import LineLint.Fault
import LineLint.LetterCase

/-!
# Casing of identifiers

An identifier is split into words at underscores and at changes of letter case, and put together
again under one of four conventions. Only ASCII letters and decimal digits belong to words; a run
of capitals is one word, up to the capital that starts the next lower case word.
-/

namespace LineLint

inductive Convention where
  | pascal | camel | snake | upperSnake
  deriving DecidableEq

namespace Convention

def name : Convention → String
  | pascal => "PascalCase"
  | camel => "camelCase"
  | snake => "snake_case"
  | upperSnake => "UPPER_SNAKE_CASE"

def all : List Convention := [pascal, camel, snake, upperSnake]

def ofName? (t : Text) : Except Fault Convention :=
  match all.find? fun c => c.name.toList == t with
  | some c => .ok c
  | none => .error (.notAMember t "Convention")

end Convention

namespace Identifier

/-- The length of the word that `t` starts with, or 0 if it starts with none. -/
def wordLength (t : Text) : Nat :=
  let upper := (t.takeWhile isAsciiUpper).length
  let rest := t.drop upper
  let lower := (rest.takeWhile isAsciiLower).length
  let digits (t : Text) := (t.takeWhile isDecimal).length
  if lower == 0 then upper + digits rest
  else if upper ≤ 1 then upper + lower + digits (rest.drop lower)
  else upper - 1

/-- The words of an identifier; characters that belong to none are left out. -/
def words (t : Text) : List Text :=
  match t with
  | [] => []
  | c :: rest =>
      let n := wordLength (c :: rest)
      if n == 0 then words rest else (c :: rest).take n :: words (rest.drop (n - 1))
termination_by t.length
decreasing_by all_goals simp +arith [List.length_drop]

def leadingUnderscores (t : Text) : Text := t.takeWhile (· == '_')

def dropUnderscores (t : Text) : Text := t.dropWhile (· == '_')

def capitalize (word : Text) : Text :=
  match word with
  | [] => []
  | c :: rest => upperAscii c :: rest.map lowerChar

def toPascal (t : Text) : Text := (words t).flatMap capitalize

def toCamel (t : Text) : Text :=
  match toPascal t with
  | [] => []
  | c :: rest => lowerChar c :: rest

def toSnake (t : Text) : Text :=
  leadingUnderscores t ++ Text.joinWith ['_'] ((words t).map fun w => w.map lowerChar)

def toUpperSnake (t : Text) : Text :=
  leadingUnderscores t ++ Text.joinWith ['_'] ((words t).map fun w => w.map upperAscii)

/-- Whether the first character and all that follow it belong to the given classes. -/
def shaped (first other : Char → Bool) : Text → Bool
  | [] => false
  | c :: rest => first c && rest.all other

def isPascal : Text → Bool := shaped isAsciiUpper isAsciiAlphanumeric

def isCamel : Text → Bool := shaped isAsciiLower isAsciiAlphanumeric

def isSnake (t : Text) : Bool :=
  shaped isAsciiLower (fun c => isAsciiLower c || isAsciiDigit c || c == '_') (dropUnderscores t)

def isUpperSnake (t : Text) : Bool :=
  shaped isAsciiUpper (fun c => isAsciiUpper c || isAsciiDigit c || c == '_') (dropUnderscores t)

end Identifier

namespace Convention

def holds : Convention → Text → Bool
  | pascal => Identifier.isPascal
  | camel => Identifier.isCamel
  | snake => Identifier.isSnake
  | upperSnake => Identifier.isUpperSnake

def convert : Convention → Text → Text
  | pascal => Identifier.toPascal
  | camel => Identifier.toCamel
  | snake => Identifier.toSnake
  | upperSnake => Identifier.toUpperSnake

end Convention

end LineLint
