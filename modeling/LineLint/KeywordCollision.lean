import LineLint.Declaration
import LineLint.Rule

/-!
# Collisions with keywords

A declared identifier that is a reserved word of the language gets an underscore appended, on the
line of its declaration. Names are declared by patterns and by the entries of parameter lists,
which the patterns for lists capture in a group `params`.
-/

namespace LineLint

structure KeywordCollision where
  language : String
  keywords : List Text
  declarations : List Pattern
  parameterLists : List Pattern := []
  /-- Whether an entry of a parameter list starts with its name rather than ending with it. -/
  nameFirst : Bool := false
  style : LiteralStyle := {}

namespace KeywordCollision

/-- The name that one entry of a parameter list declares, its default value left out. -/
def parameterName? (r : KeywordCollision) (entry : Text) : Option Text :=
  let declared := entry.takeWhile (· != '=')
  let words := (Pattern.dollarName.findAll declared).map fun m =>
    Text.slice declared m.start m.stop
  if r.nameFirst then words.head? else words.getLast?

def declaredNames (r : KeywordCollision) (masked : Text) : List Text :=
  let found (p : Pattern) := (p.findAll masked).filter fun m => !Declaration.followsStatementWord m
  r.declarations.flatMap (fun p => (found p).map (·.text "name")) ++
    r.parameterLists.flatMap fun p => (found p).flatMap fun m =>
      (Text.splitOn ',' (m.text "params")).filterMap r.parameterName?

def rename (style : LiteralStyle) (line : Text) (names : List Text) : Text :=
  names.foldl (fun line name => style.replaceWord line name (name ++ ['_'])) line

def check (r : KeywordCollision) (index : Nat) (line : Text) : List Finding :=
  let stripped := line.trim
  if stripped.isEmpty || r.style.isCommentLine stripped then []
  else
    let masked := r.style.maskLiterals (r.style.splitComment line).1
    let colliding := (r.declaredNames masked).filter r.keywords.contains
    match colliding with
    | [] => []
    | name :: _ =>
        [{ index
           replacement := rename r.style line colliding.eraseDups
           fields := [("name", name), ("language", r.language.toList)] }]

def rule (r : KeywordCollision) : Rule :=
  .ofCheck .keywordCollision ⟨"namingKeywordCollision", "correctness", "heuristic"⟩
    (Rule.eachLine r.check)

end KeywordCollision

end LineLint
