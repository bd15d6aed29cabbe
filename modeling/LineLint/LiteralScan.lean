import LineLint.Blank

/-!
# Literals of a line

The string literals of one line and the place where its comment starts. A line is read from left to
right. A backslash inside a literal takes the next character with it, and a literal that is not
closed ends with the line: no literal goes on to the next one.
-/

namespace LineLint

/-- The quote and comment marks of a language. -/
structure LiteralStyle where
  quotes : Text := ['"', '\'']
  tripleQuotes : Bool := false
  lineComment : Option Text := some ['/', '/']
  blockComments : Bool := true

/-- The positions from `start` up to, but not including, `stop`. -/
structure Span where
  start : Nat
  stop : Nat
  deriving DecidableEq

namespace Span

def holds (s : Span) (position : Nat) : Bool := s.start ≤ position && position < s.stop

end Span

structure LiteralScan where
  spans : List Span
  comment : Option Nat

namespace LiteralStyle

/-- Whether a line without outer blanks is a comment, or goes on with a block comment. -/
def isCommentLine (style : LiteralStyle) (stripped : Text) : Bool :=
  style.lineComment.any (fun mark => mark.isPrefixOf stripped) ||
    (style.blockComments &&
      (stripped.startsWithAny [['/', '*'], ['*', '/'], ['*', ' ']] || stripped == ['*']))

def commentStarts (style : LiteralStyle) (rest : Text) : Bool :=
  style.lineComment.any fun mark => mark.isPrefixOf rest

/-- The delimiter of a literal that opens with the first character of `rest`. -/
def delimiterAt (style : LiteralStyle) (quote : Char) (rest : Text) : Text :=
  let triple := [quote, quote, quote]
  if style.tripleQuotes && triple.isPrefixOf rest then triple else [quote]

/-- The number of characters up to and including the closing delimiter. -/
def closeLength? (delimiter : Text) : Text → Option Nat
  | [] => none
  | ['\\'] => none
  | '\\' :: _ :: rest => (closeLength? delimiter rest).map (· + 2)
  | c :: rest =>
      if delimiter.isPrefixOf (c :: rest) then some delimiter.length
      else (closeLength? delimiter rest).map (· + 1)

def scanFrom (style : LiteralStyle) (position : Nat) (line : Text) : LiteralScan :=
  match line with
  | [] => ⟨[], none⟩
  | c :: rest =>
      if style.commentStarts (c :: rest) then ⟨[], some position⟩
      else if !style.quotes.contains c then style.scanFrom (position + 1) rest
      else
        let delimiter := style.delimiterAt c (c :: rest)
        let opened := delimiter.length - 1
        match closeLength? delimiter (rest.drop opened) with
        | none => ⟨[⟨position, position + rest.length + 1⟩], none⟩
        | some n =>
            let stop := position + 1 + opened + n
            let scan := style.scanFrom stop (rest.drop (opened + n))
            { scan with spans := ⟨position, stop⟩ :: scan.spans }
termination_by line.length
decreasing_by all_goals simp +arith [List.length_drop]

def scan (style : LiteralStyle) (line : Text) : LiteralScan := style.scanFrom 0 line

/-- The literals of a line, quotes included. -/
def literals (style : LiteralStyle) (line : Text) : List Span := (style.scan line).spans

def isInsideLiteral (style : LiteralStyle) (line : Text) (position : Nat) : Bool :=
  (style.literals line).any fun s => s.holds position

/-- The code of a line and its comment, if one starts outside literals. -/
def splitComment (style : LiteralStyle) (line : Text) : Text × Text :=
  match (style.scan line).comment with
  | none => (line, [])
  | some position => (line.take position, line.drop position)

end LiteralStyle

end LineLint
