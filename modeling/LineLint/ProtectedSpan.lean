import LineLint.LiteralMask

/-!
# Protected characters of a line

Spacing checks leave literals alone and, where a language has them, generic type spans such as
`List<int>`: a name, at most one blank, and angle brackets nested at most three deep around names,
blanks and list punctuation. A line is turned into cells, which carry for each character its masked
form and whether it is protected.
-/

namespace LineLint

namespace ProtectedSpan

/-- A character that can stand between the angle brackets of a generic span. -/
def atom : Pattern :=
  .one fun c => isWordChar c || isBlank c || [',', '.', ':', '?', '[', ']'].contains c

def bracketed (body : Pattern) : Pattern := .char '<' ++ .star body ++ .char '>'

def genericSpan : Pattern :=
  .notAfter LiteralStyle.isNamePart ++ .nameStart ++
    .star (.one fun c => isWordChar c || c == '.' || c == ':') ++ .opt .blank ++
    bracketed (atom ||| bracketed (atom ||| bracketed atom))

/-- The angle brackets of a generic span, with all between them. -/
def anglePart (masked : Text) (m : Match) : Span :=
  ⟨m.start + ((Text.slice masked m.start m.stop).takeWhile (· != '<')).length, m.stop⟩

def spans (style : LiteralStyle) (generics : Bool) (code : Text) : List Span :=
  let masked := style.maskLiterals code
  style.literals code ++
    (if generics then (genericSpan.findAll masked).map (anglePart masked) else [])

def isProtected (spans : List Span) (position : Nat) : Bool := spans.any fun s => s.holds position

end ProtectedSpan

/-- A character of a line, with its masked form, whether it is protected, and the control keyword
that ends right before it, if its opening parenthesis is this character. -/
structure Cell where
  code : Char
  masked : Char
  isProtected : Bool
  keyword : Option Text := none

namespace Cell

def ofCode (style : LiteralStyle) (generics : Bool) (keywordAt : Nat → Option Text)
    (code : Text) : List Cell :=
  let masked := style.maskLiterals code
  let spans := ProtectedSpan.spans style generics code
  (code.zip masked).mapIdx fun i (c, m) =>
    ⟨c, m, ProtectedSpan.isProtected spans i,
      if ProtectedSpan.isProtected spans i then none else keywordAt i⟩

end Cell

end LineLint
