import LineLint.LiteralScan
import LineLint.PatternSearch

/-!
# Masked lines

A masked line has a null character in the place of each character inside a literal. Quotes stay,
and so do all positions, so that a search on the mask finds places in the line itself.
-/

namespace LineLint

def maskChar : Char := '\x00'

namespace LiteralStyle

/-- The length of the run of backslashes that ends `t`. -/
def trailingBackslashes (t : Text) : Nat := (t.reverse.takeWhile (· == '\\')).length

/-- Whether a span ends with its own delimiter, read backwards: the delimiter stands there a second
time, and an even number of backslashes comes before it. -/
def isClosed (style : LiteralStyle) (line : Text) (s : Span) : Bool :=
  match line.drop s.start with
  | [] => false
  | quote :: rest =>
      let delimiter := style.delimiterAt quote (quote :: rest)
      let literal := Text.slice line s.start s.stop
      2 * delimiter.length ≤ literal.length && delimiter.isSuffixOf (line.take s.stop) &&
        trailingBackslashes ((literal.take (literal.length - delimiter.length)).drop 1) % 2 == 0

/-- Whether a literal hides a position: the positions between its first and last characters, and
the last one too if the literal is cut off by the end of the line. -/
def hides (style : LiteralStyle) (line : Text) (s : Span) (position : Nat) : Bool :=
  s.start < position &&
    (position + 1 < s.stop ||
      (position < s.stop && s.stop == line.length && !style.isClosed line s))

def maskLiterals (style : LiteralStyle) (line : Text) : Text :=
  let spans := style.literals line
  line.mapIdx fun i c => if spans.any (fun s => style.hides line s i) then maskChar else c

/-- The masked code of a line, without its comment and the blanks at its end. -/
def codeMask (style : LiteralStyle) (line : Text) : Text :=
  Text.trimRight (style.maskLiterals (style.splitComment line).1)

/-- Puts texts in the places of matches, copying the line between them. -/
def replaceMatches (line : Text) (new : Match → Text) (position : Nat) : List Match → Text
  | [] => line.drop position
  | m :: ms => Text.slice line position m.start ++ new m ++ replaceMatches line new m.stop ms

def isNamePart (c : Char) : Bool := isWordChar c || c == '$'

/-- A word with neither a word character nor a dollar sign at its sides. -/
def wholeWord (word : Text) : Pattern :=
  .notAfter isNamePart ++ .textPattern word ++ .notBefore isNamePart

/-- Replaces a whole word wherever it stands outside literals. -/
def replaceWord (style : LiteralStyle) (line word new : Text) : Text :=
  replaceMatches line (fun _ => new) 0 ((wholeWord word).findAll (style.maskLiterals line))

end LiteralStyle

end LineLint
