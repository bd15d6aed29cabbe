import LineLint.BracePlacement
import LineLint.Comparison
import LineLint.ControlStructure
import LineLint.DuplicateLines
import LineLint.EmptyLine
import LineLint.IndentationStep
import LineLint.KeywordCollision
import LineLint.NamingConvention
import LineLint.OperatorSpacing
import LineLint.Profile
import LineLint.ScopeRules
import LineLint.StrictMode
import LineLint.Terminator
import LineLint.VariableIdiom

/-!
# JavaScript

The profile and the rules for JavaScript and its typed dialect: braces at the end of the header,
strict equality, strict mode.
-/

namespace LineLint

namespace JavaScript

open Pattern

def keywords : List String :=
  ["abstract", "arguments", "await", "boolean", "break", "byte", "case", "catch", "char", "class",
   "const", "continue", "debugger", "default", "delete", "do", "double", "else", "enum", "eval",
   "export", "extends", "false", "final", "finally", "float", "for", "function", "goto", "if",
   "implements", "import", "in", "instanceof", "int", "interface", "let", "long", "native", "new",
   "null", "package", "private", "protected", "public", "return", "short", "static", "super",
   "switch", "synchronized", "this", "throw", "throws", "transient", "true", "try", "typeof", "var",
   "void", "volatile", "while", "with", "yield"]

def profile : Profile where
  id := "javascript"
  displayName := "JavaScript"
  extensions := [".js", ".jsx", ".ts", ".tsx"]
  keywords := keywords
  signals := {
    positive := ["function", "=>", "const ", "let ", "console.log", "document.", "window.",
      "addEventListener", "import ", "export "].map Signal.word }
  style := { quotes := ['"', '\'', '`'] }

def operators : OperatorTable where
  binary :=
    [">>>=", "===", "!==", "**=", "<<=", ">>=", "&&=", "||=", "??=", ">>>", "==", "!=", "<=", ">=",
     "&&", "||", "??", "=>", "**", "+=", "-=", "*=", "/=", "%=", "&=", "|=", "^=", "<<", ">>", "=",
     "+", "-", "*", "/", "%", "<", ">"].map String.toList

def declaredName : Pattern := group "name" dollarName

def className : Pattern := wordEdge ++ text "class" ++ blanks1 ++ declaredName

def functionName : Pattern :=
  wordEdge ++ text "function" ++ blanks ++ opt (char '*') ++ blanks1 ++ declaredName

def collisions : KeywordCollision where
  language := profile.displayName
  keywords := profile.keywordTexts
  declarations :=
    [wordEdge ++ words ["var", "let", "const"] ++ blanks1 ++ declaredName, functionName, className]
  parameterLists :=
    [wordEdge ++ text "function" ++ wordEdge ++ star (noneOf "(") ++ char '(' ++
      group "params" (star (noneOf ")")) ++ char ')']
  nameFirst := true
  style := profile.style

def naming : NamingConvention where
  targets :=
    [⟨"Class", className, [.pascal], .pascal, some (char '$')⟩,
     ⟨"Function", functionName ++ blanks ++ char '(', [.camel, .pascal], .camel, some (char '$')⟩]
  keywords := profile.keywordTexts
  style := profile.style

def rules : List Rule :=
  [VarDeclaration.rule profile.style,
   EmptyLine.rule,
   Terminator.rule
     { style := profile.style, directives := ["import ".toList]
       exemptStarts := [['#', '!'], ['@']] },
   StrictEquality.rule profile.style,
   OperatorSpacing.rule { table := operators, style := profile.style, skipped := [['#', '!']] },
   IndentationStep.rule { unit := profile.indentUnit, style := profile.style },
   BraceSameLine.rule profile.style,
   collisions.rule,
   ControlStructure.rule
     { braceStyle := .sameLine, style := profile.style, unit := profile.indentUnit },
   TryHandler.rule { style := profile.style },
   SwitchDefault.rule profile.style,
   DuplicateLines.rule { style := profile.style },
   naming.rule,
   StrictMode.rule profile.style]

end JavaScript

end LineLint
