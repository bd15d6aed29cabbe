/-!
# Text

Source text is a list of characters, so a position in it is the number of characters before that
position. The operations on positions, parts and separators that the library needs stand here.
-/

namespace LineLint

abbrev Text := List Char

namespace Text

/-- The text from position `start` up to, but not including, position `stop`. -/
def slice (t : Text) (start stop : Nat) : Text := (t.take stop).drop start

/-- The text with the part between two positions replaced. -/
def splice (t : Text) (start stop : Nat) (new : Text) : Text := t.take start ++ new ++ t.drop stop

def startsWithAny (t : Text) (parts : List Text) : Bool := parts.any fun part => part.isPrefixOf t

def endsWithAny (t : Text) (parts : List Text) : Bool := parts.any fun part => part.isSuffixOf t

/-- The position of the first occurrence of `part`. -/
def position? (part : Text) : Text → Option Nat
  | [] => if part.isEmpty then some 0 else none
  | c :: rest =>
      if part.isPrefixOf (c :: rest) then some 0 else (position? part rest).map (· + 1)

def includes (t part : Text) : Bool := (position? part t).isSome

/-- The parts between the occurrences of a separator; there is always at least one. -/
def splitOn (separator : Char) : Text → List Text
  | [] => [[]]
  | c :: rest =>
      if c = separator then [] :: splitOn separator rest
      else match splitOn separator rest with
        | [] => [[c]]
        | part :: parts => (c :: part) :: parts

def joinWith (separator : Text) (parts : List Text) : Text := List.intercalate separator parts

def dropRightWhile (p : Char → Bool) (t : Text) : Text := (t.reverse.dropWhile p).reverse

def spaces (n : Int) : Text := List.replicate n.toNat ' '

/-- The decimal digits of a number. -/
def ofInt (n : Int) : Text := (toString n).toList

end Text

end LineLint
