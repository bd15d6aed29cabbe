import LineLint.BlockHeader
import LineLint.CommaSpacing
import LineLint.Comparison
import LineLint.DuplicateLines
import LineLint.EmptyLine
import LineLint.ImportLayout
import LineLint.IndentationStep
import LineLint.KeywordCollision
import LineLint.NamingConvention
import LineLint.Profile
import LineLint.ResourceLifecycle
import LineLint.ScopeRules

/-!
# Python

The profile and the rules for Python: blocks by indentation, no terminator, imports at the top.
-/

namespace LineLint

namespace Python

open Pattern

def keywords : List String :=
  ["False", "None", "True", "and", "as", "assert", "async", "await", "break", "class", "continue",
   "def", "del", "elif", "else", "except", "finally", "for", "from", "global", "if", "import", "in",
   "is", "lambda", "nonlocal", "not", "or", "pass", "raise", "return", "try", "while", "with",
   "yield"]

def interpreterLine : Pattern := start ++ text "#!" ++ star (noneOf "\n") ++ char '\n'

/-- A block header that fills its line. -/
def headerLine : Pattern :=
  lineStart ++ blanks ++ words ["for", "while", "class"] ++ wordEdge ++ star (noneOf "\n") ++
    char ':' ++ blanks ++ lineStop

/-- An import of another language, which names its module in quotes. -/
def quotedImport : Pattern :=
  lineStart ++ blanks ++ text "import" ++ blank ++ star (noneOf "\n") ++ wordEdge ++ text "from" ++
    blanks1 ++ oneOf "'\""

def profile : Profile where
  id := "python"
  displayName := "Python"
  extensions := [".py"]
  keywords := keywords
  signals := {
    positive := ["def ", "import ", "print(", "if __name__"].map Signal.word ++
      [.pattern interpreterLine, .pattern headerLine]
    negative := ["public class", "#include", "std::", "function ", "console.", "System.out",
      "import java."].map Signal.word ++ [.pattern quotedImport] }
  terminator := none
  style := { tripleQuotes := true, lineComment := some ['#'], blockComments := false }
  relocatable := some ImportLayout.importLine

def operators : OperatorTable where
  binary :=
    ["**=", "//=", ">>=", "<<=", "==", "!=", "<=", ">=", "->", ":=", "+=", "-=", "*=", "/=", "%=",
     "&=", "|=", "^=", "**", "//", "<<", ">>", "=", "+", "-", "*", "/", "%", "<", ">"].map
      String.toList
  verbatim := []
  controlKeywords := ["if", "elif", "while"].map String.toList

def spacing : OperatorSpacing where
  table := operators
  style := profile.style
  generics := false
  keywordArguments := true
  skipped := ["import ", "from ", "@"].map String.toList

def declaredName : Pattern := group "name" Pattern.name

def singleEquals : Pattern := char '=' ++ notBeforeAny "="

def functionHead : Pattern :=
  start ++ blanks ++ opt (text "async" ++ blanks1) ++ text "def" ++ blanks1

def functionName : Pattern := functionHead ++ declaredName

def className : Pattern := start ++ blanks ++ text "class" ++ blanks1 ++ declaredName

def collisions : KeywordCollision where
  language := profile.displayName
  keywords := profile.keywordTexts
  declarations :=
    [start ++ blanks ++ declaredName ++ blanks ++ singleEquals, functionName, className]
  parameterLists :=
    [functionHead ++ plus wordChar ++ blanks ++ char '(' ++ group "params" (star (noneOf ")")) ++
      char ')']
  nameFirst := true
  style := profile.style

/-- A name between double underscores. -/
def specialName : Pattern := start ++ text "__" ++ plus wordChar ++ text "__" ++ stop

/-- A name in capitals with an underscore, assigned at the start of a line. -/
def constantName : Pattern :=
  start ++ group "name" (one isAsciiUpper ++ star (one fun c => isAsciiUpper c || isAsciiDigit c) ++
    char '_' ++ star (one fun c => isAsciiAlphanumeric c || c == '_')) ++ blanks ++ singleEquals

def variableName : Pattern :=
  start ++ blanks ++ declaredName ++ blanks ++ opt (char ':' ++ plus (noneOf "=")) ++ singleEquals

def naming : NamingConvention where
  targets :=
    [⟨"Class", className, [.pascal], .pascal, none⟩,
     ⟨"Function", functionName, [.snake], .snake, some specialName⟩,
     ⟨"Constant", constantName, [.upperSnake], .upperSnake, none⟩,
     ⟨"Variable", variableName, [.snake, .upperSnake, .pascal], .snake, some specialName⟩]
  keywords := profile.keywordTexts
  style := profile.style

def resources : ResourceLifecycle where
  acquire :=
    [notAfter (fun c => isWordChar c || c == '.') ++ group "resource" (text "open") ++ blanks ++
      char '(']
  managed := [start ++ blanks ++ opt (text "async" ++ blanks1) ++ text "with" ++ wordEdge]
  managedBy := "a with statement"
  release := text ".close" ++ blanks ++ char '('
  style := profile.style

def rules : List Rule :=
  [spacing.rule,
   CommaSpacing.rule
     { style := profile.style, generics := false, skipped := ["import ".toList] },
   NullComparison.noneRule profile.style,
   IndentationStep.rule { unit := profile.indentUnit, style := profile.style },
   EmptyLine.rule,
   collisions.rule,
   MissingColon.rule profile.style,
   IndentedBlock.rule profile.indentUnit profile.style,
   MissingCondition.rule profile.style,
   DuplicateLines.rule { style := profile.style },
   EmptyIf.rule profile.indentUnit profile.style,
   TryHandler.rule
     { mode := .indentation, style := profile.style, handlers := ["except", "finally"],
       unit := profile.indentUnit },
   ImportLayout.placementRule profile.style,
   ImportLayout.singleRule profile.style,
   naming.rule,
   resources.rule]

end Python

end LineLint
