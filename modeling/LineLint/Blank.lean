import LineLint.Text

/-!
# Blank characters

A blank is any white space character: the ASCII ones, the four ASCII separators, and the separators
of Unicode. Trimming removes blanks, while the indentation of a line is made of spaces and tabs
only.
-/

namespace LineLint

def isBlank (c : Char) : Bool :=
  let n := c.toNat
  (9 ≤ n && n ≤ 13) || (28 ≤ n && n ≤ 32) || n == 0x85 || n == 0xA0 || n == 0x1680 ||
    (0x2000 ≤ n && n ≤ 0x200A) || n == 0x2028 || n == 0x2029 || n == 0x202F || n == 0x205F ||
    n == 0x3000

def isSpaceOrTab (c : Char) : Bool := c == ' ' || c == '\t'

namespace Text

def trimLeft (t : Text) : Text := t.dropWhile isBlank

def trimRight (t : Text) : Text := t.dropRightWhile isBlank

def trim (t : Text) : Text := trimRight (trimLeft t)

def allBlank (t : Text) : Bool := t.all isBlank

/-- The spaces and tabs that a line starts with. -/
def indentation (line : Text) : Text := line.takeWhile isSpaceOrTab

def dropIndentation (line : Text) : Text := line.dropWhile isSpaceOrTab

end Text

end LineLint
