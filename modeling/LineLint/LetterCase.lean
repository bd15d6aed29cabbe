import LineLint.CaseTable
import LineLint.Character
import LineLint.Text

/-!
# Letter case

Lower casing of characters and texts, and the folding that comparisons without regard to case use.
A capital sigma is lowered to the final sigma where it ends a word: a cased character stands before
it and none after it, characters without influence on case being passed over.
-/

namespace LineLint

/-- The lower case form of a character that has a single one. -/
def lowerChar (c : Char) : Char :=
  if c.toNat < 128 then (if isAsciiUpper c then Char.ofNat (c.toNat + 32) else c)
  else match CaseShift.shifted? lowerShifts c.toNat with
    | some n => Char.ofNat n
    | none => c

/-- ASCII letters only; all else is kept. -/
def upperAscii (c : Char) : Char := if isAsciiLower c then Char.ofNat (c.toNat - 32) else c

/-- The representative by which an ASCII letter of a pattern meets its other forms: the dotless i
and the long s stand for `i` and `s`, besides the characters that lower to the letter. -/
def caselessChar (c : Char) : Char :=
  let low := lowerChar c
  if low.toNat == 0x131 then 'i' else if low.toNat == 0x17F then 's' else low

/-- Whether the nearest character that has influence on case is cased. -/
def nextIsCased : Text → Bool
  | [] => false
  | c :: rest => if inRanges caseIgnorableRanges c then nextIsCased rest else inRanges casedRanges c

namespace Text

/-- Lower casing where `before` holds the characters already passed, the nearest first. -/
def lowerFrom (before : Text) : Text → Text
  | [] => []
  | c :: rest =>
      let lowered : Text :=
        if c.toNat == 0x3A3 then
          [if nextIsCased before && !nextIsCased rest then Char.ofNat 0x3C2 else Char.ofNat 0x3C3]
        else if c.toNat == 0x130 then ['i', Char.ofNat 0x307]
        else [lowerChar c]
      lowered ++ lowerFrom (c :: before) rest

def lower (t : Text) : Text := lowerFrom [] t

def foldChar (c : Char) : Text :=
  if c.toNat < 128 then [lowerChar c]
  else match foldSequences.lookup c.toNat with
    | some ns => ns.map Char.ofNat
    | none =>
        match CaseShift.shifted? foldShifts c.toNat with
        | some n => [Char.ofNat n]
        | none => if inRanges unfoldedRanges c then [c] else [lowerChar c]

/-- Two texts with the same folded form differ in case only. -/
def fold (t : Text) : Text := t.flatMap foldChar

end Text

end LineLint
