import LineLint.PatternSearch
import LineLint.Value

/-!
# Scalars of a TOML document

Readers for the parts of a document that hold no other values: comments, strings, keys, numbers and
truth values. A reader takes what it reads from the front of a text and returns it with the rest,
or fails. Control characters other than the tab are allowed nowhere, and newlines only where a
string may span lines.
-/

namespace LineLint

namespace Toml

def isControl (c : Char) : Bool := (c.toNat < 32 && c != '\t') || c.toNat == 127

def isKeyChar (c : Char) : Bool := isAsciiAlphanumeric c || c == '-' || c == '_'

def skipSpaces (t : Text) : Text := t.dropWhile isSpaceOrTab

/-- Skips a comment up to the newline behind it. -/
def skipComment : Text → Option Text
  | '#' :: rest =>
      if (rest.takeWhile (· != '\n')).any isControl then none else some (rest.dropWhile (· != '\n'))
  | t => some t

/-- Skips blanks, newlines and comments, as between the items of an array. -/
def skipGap (inComment : Bool) : Text → Option Text
  | [] => some []
  | c :: rest =>
      if inComment then
        if c == '\n' then skipGap false rest else if isControl c then none else skipGap true rest
      else if isSpaceOrTab c || c == '\n' then skipGap false rest
      else if c == '#' then skipGap true rest
      else some (c :: rest)

/-! ## Strings -/

def hexValue? (c : Char) : Option Nat :=
  if isAsciiDigit c then some (c.toNat - 48)
  else if 'a' ≤ c && c ≤ 'f' then some (c.toNat - 87)
  else if 'A' ≤ c && c ≤ 'F' then some (c.toNat - 55)
  else none

/-- The character with a code point given in hexadecimal digits. -/
def scalar? (digits : Text) : Option Char := do
  let values ← digits.mapM hexValue?
  let n := values.foldl (fun n d => 16 * n + d) 0
  if n.isValidChar then some (Char.ofNat n) else none

def escaped? : Char → Option Char
  | 'b' => some '\x08'
  | 't' => some '\t'
  | 'n' => some '\n'
  | 'f' => some '\x0c'
  | 'r' => some '\r'
  | '"' => some '"'
  | '\\' => some '\\'
  | _ => none

/-- The space that a backslash at the end of a line swallows: none, what is left of that line, or
all that follows it. -/
inductive Fold where
  | none | line | all
  deriving DecidableEq

/-- Up to two more quotes belong to a string over lines that three quotes would close. -/
def extraQuotes (mark : Char) (t : Text) : Text × Text :=
  let extra := (t.take 2).takeWhile (· == mark)
  (extra, t.drop extra.length)

/-- The rest of a string in double quotes. -/
def basicString (multiline : Bool) (fold : Fold) : Text → Option (Text × Text)
  | [] => .none
  | c :: rest =>
      if fold == .line then
        if isSpaceOrTab c then basicString multiline .line rest
        else if c == '\n' then basicString multiline .all rest
        else .none
      else if fold == .all && (isSpaceOrTab c || c == '\n') then basicString multiline .all rest
      else if c == '\\' then
        match rest with
        | 'u' :: c₁ :: c₂ :: c₃ :: c₄ :: rest => do
            let c ← scalar? [c₁, c₂, c₃, c₄]
            let (t, rest) ← basicString multiline .none rest
            return (c :: t, rest)
        | 'U' :: c₁ :: c₂ :: c₃ :: c₄ :: c₅ :: c₆ :: c₇ :: c₈ :: rest => do
            let c ← scalar? [c₁, c₂, c₃, c₄, c₅, c₆, c₇, c₈]
            let (t, rest) ← basicString multiline .none rest
            return (c :: t, rest)
        | e :: rest =>
            if multiline && isSpaceOrTab e then basicString multiline .line rest
            else if multiline && e == '\n' then basicString multiline .all rest
            else do
              let c ← escaped? e
              let (t, rest) ← basicString multiline .none rest
              return (c :: t, rest)
        | [] => .none
      else if c == '"' && !multiline then some ([], rest)
      else if c == '"' && ['"', '"'].isPrefixOf rest then
        some (extraQuotes '"' (rest.drop 2))
      else if isControl c && !(multiline && c == '\n') then .none
      else do
        let (t, rest) ← basicString multiline .none rest
        return (c :: t, rest)

/-- The rest of a string in single quotes, which knows no escapes. -/
def literalString (t : Text) : Option (Text × Text) :=
  match t.dropWhile (· != '\'') with
  | [] => none
  | _ :: rest =>
      let body := t.takeWhile (· != '\'')
      if body.any isControl then none else some (body, rest)

def literalLines (t : Text) : Option (Text × Text) := do
  let stop ← Text.position? ['\'', '\'', '\''] t
  let body := t.take stop
  if body.any fun c => isControl c && c != '\n' then none
  else
    let (extra, rest) := extraQuotes '\'' (t.drop (stop + 3))
    return (body ++ extra, rest)

/-- A newline right behind the opening quotes is not part of a string over lines. -/
def dropNewline : Text → Text
  | '\n' :: rest => rest
  | t => t

def stringValue : Text → Option (Text × Text)
  | '"' :: '"' :: '"' :: rest => basicString true .none (dropNewline rest)
  | '"' :: rest => basicString false .none rest
  | '\'' :: '\'' :: '\'' :: rest => literalLines (dropNewline rest)
  | '\'' :: rest => literalString rest
  | _ => none

/-! ## Keys -/

def keyPart : Text → Option (Text × Text)
  | '"' :: rest => basicString false .none rest
  | '\'' :: rest => literalString rest
  | t =>
      let part := t.takeWhile isKeyChar
      if part.isEmpty then none else some (part, t.dropWhile isKeyChar)

/-- Keys joined by points, at most so many, with the blanks behind them. -/
def keyPath : Nat → Text → Option (List Text × Text)
  | 0, _ => none
  | count + 1, t => do
      let (part, rest) ← keyPart t
      match skipSpaces rest with
      | '.' :: rest => do
          let (parts, rest) ← keyPath count (skipSpaces rest)
          return (part :: parts, rest)
      | rest => return ([part], rest)

/-! ## Numbers -/

/-- Digits of a class, with single underscores between them. -/
def digitsOf (p : Char → Bool) : Pattern :=
  .one p ++ .star (.opt (.char '_') ++ .one p)

def isHexDigit (c : Char) : Bool := (hexValue? c).isSome

def radixNumber : Pattern :=
  .char '0' ++ .group "digits" (
    (.char 'x' ++ digitsOf isHexDigit) ||| (.char 'b' ++ digitsOf fun c => c == '0' || c == '1') |||
    (.char 'o' ++ digitsOf fun c => '0' ≤ c && c ≤ '7'))

def decimalNumber : Pattern :=
  .group "sign" (.opt (.oneOf "+-")) ++
    .group "whole" (.char '0' |||
      (.one (fun c => '1' ≤ c && c ≤ '9') ++ .star (.opt (.char '_') ++ .one isAsciiDigit))) ++
    .opt (.char '.' ++ .group "fraction" (digitsOf isAsciiDigit)) ++
    .opt (.oneOf "eE" ++ .group "power" (.opt (.oneOf "+-") ++ digitsOf isAsciiDigit))

def ofDigits (base : Nat) (digits : Text) : Nat :=
  (digits.filterMap hexValue?).foldl (fun n d => base * n + d) 0

def radixOf : Char → Nat
  | 'x' => 16
  | 'o' => 8
  | _ => 2

def ofSignedDigits (t : Text) : Int :=
  if t.head? == some '-' then -Int.ofNat (ofDigits 10 t) else ofDigits 10 t

/-- A number with a fraction or a power of ten is a real one. -/
def decimalOf (m : Match) : Value :=
  let fraction := (m.text "fraction").filter isAsciiDigit
  if fraction.isEmpty && (m.text "power").isEmpty then
    .integer (ofSignedDigits (m.text "sign" ++ m.text "whole"))
  else
    .real (.ofDecimal (m.text "sign" == ['-']) (ofDigits 10 (m.text "whole" ++ fraction))
      (ofSignedDigits (m.text "power") - fraction.length))

/-- The words for what is no finite number, possibly with a sign. -/
def specialNumber (t : Text) : Option (Value × Text) :=
  let (negative, body) := match t with
    | '+' :: rest => (false, rest)
    | '-' :: rest => (true, rest)
    | _ => (false, t)
  if "inf".toList.isPrefixOf body then some (.real (.infinite negative), body.drop 3)
  else if "nan".toList.isPrefixOf body then some (.real .nan, body.drop 3)
  else none

def number (t : Text) : Option (Value × Text) :=
  match radixNumber.matchStart? t, decimalNumber.matchStart? t with
  | some m, _ =>
      match m.text "digits" with
      | [] => none
      | mark :: digits => some (.integer (ofDigits (radixOf mark) digits), t.drop m.stop)
  | none, some m => some (decimalOf m, t.drop m.stop)
  | none, none => specialNumber t

def scalar (t : Text) : Option (Value × Text) :=
  if t.head? == some '"' || t.head? == some '\'' then
    (stringValue t).map fun (s, rest) => (.text s, rest)
  else if "true".toList.isPrefixOf t then some (.bool true, t.drop 4)
  else if "false".toList.isPrefixOf t then some (.bool false, t.drop 5)
  else number t

end Toml

end LineLint
