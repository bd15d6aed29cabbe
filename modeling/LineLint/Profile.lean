import LineLint.LiteralScan
import LineLint.PatternSearch

/-!
# Language profiles

What the library knows of a language apart from its rules: file extensions, keywords, literal and
comment marks, indentation, and the signals by which a text without a telling extension is
recognized. A text is recognized if it shows a positive signal and no negative one.
-/

namespace LineLint

/-- A text or a pattern that occurs, or several signals that all show. -/
inductive Signal where
  | part (t : Text)
  | pattern (p : Pattern)
  | all (parts : List Signal)
  deriving Inhabited

namespace Signal

mutual

def shows (t : Text) : Signal → Bool
  | part p => t.includes p
  | pattern p => p.occursIn t
  | all parts => allShow t parts

def allShow (t : Text) : List Signal → Bool
  | [] => true
  | s :: rest => shows t s && allShow t rest

end

def word (s : String) : Signal := part s.toList

end Signal

structure ContentSignals where
  positive : List Signal
  negative : List Signal := []

namespace ContentSignals

def recognize (s : ContentSignals) (t : Text) : Bool :=
  !t.allBlank && s.positive.any (Signal.shows t) && !s.negative.any (Signal.shows t)

end ContentSignals

structure Profile where
  id : String
  displayName : String
  extensions : List String
  keywords : List String
  signals : ContentSignals
  indentUnit : Int := 4
  terminator : Option Text := some [';']
  style : LiteralStyle := {}
  /-- The start of statements that may move to the top of a file. -/
  relocatable : Option Pattern := none

namespace Profile

/-- Whether files with an extension, given with or without its dot, are in the language. -/
def handlesExtension (p : Profile) (extension : Text) : Bool :=
  let lowered := extension.lower
  let dotted := if lowered.isEmpty || lowered.head? == some '.' then lowered else '.' :: lowered
  (p.extensions.map String.toList).contains dotted

def keywordTexts (p : Profile) : List Text := p.keywords.map String.toList

end Profile

end LineLint
