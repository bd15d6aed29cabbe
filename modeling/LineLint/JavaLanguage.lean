import LineLint.BraceLanguage
import LineLint.BracePlacement
import LineLint.ControlStructure
import LineLint.DuplicateLines
import LineLint.EmptyLine
import LineLint.IndentationStep
import LineLint.KeywordCollision
import LineLint.NamingConvention
import LineLint.OperatorSpacing
import LineLint.Profile
import LineLint.ResourceLifecycle
import LineLint.ScopeRules
import LineLint.Terminator

/-!
# Java

The profile and the rules for Java: camel case for methods, capitals for constants, and `try` with
resources.
-/

namespace LineLint

namespace Java

open Pattern

def keywords : List String :=
  ["abstract", "assert", "boolean", "break", "byte", "case", "catch", "char", "class", "const",
   "continue", "default", "do", "double", "else", "enum", "extends", "final", "finally", "float",
   "for", "goto", "if", "implements", "import", "instanceof", "int", "interface", "long", "native",
   "new", "package", "private", "protected", "public", "return", "short", "static", "strictfp",
   "super", "switch", "synchronized", "this", "throw", "throws", "transient", "try", "void",
   "volatile", "while"]

def profile : Profile where
  id := "java"
  displayName := "Java"
  extensions := [".java"]
  keywords := keywords
  signals := {
    positive := ["public class", "import java.", "System.out.print",
      "public static void main"].map Signal.word }

def operators : OperatorTable where
  binary :=
    [">>>=", "<<=", ">>=", ">>>", "==", "!=", "<=", ">=", "&&", "||", "->", "+=", "-=", "*=", "/=",
     "%=", "&=", "|=", "^=", "<<", ">>", "=", "+", "-", "*", "/", "%", "<", ">"].map String.toList
  verbatim := ["++", "--", "::"].map String.toList

def primitives : List String :=
  ["byte", "short", "int", "long", "float", "double", "boolean", "char", "String", "var"]

def modifiers : List String :=
  ["public", "private", "protected", "static", "final", "abstract", "synchronized", "native",
   "default", "strictfp"]

def typeKinds : List String := ["class", "interface", "enum", "record"]

def collisions : KeywordCollision where
  language := profile.displayName
  keywords := profile.keywordTexts
  declarations :=
    [BraceLanguage.namedAfter primitives ++ blanks ++ beforeAny "=;,)",
     BraceLanguage.namedAfter typeKinds]
  parameterLists := [BraceLanguage.methodParameters]
  style := profile.style

def constantName : Pattern :=
  wordEdge ++
    ((text "static" ++ blanks1 ++ text "final") ||| (text "final" ++ blanks1 ++ text "static")) ++
    blanks1 ++ plus (one fun c => isWordChar c || "<>,[]".toList.contains c) ++ blanks1 ++
    BraceLanguage.declaredName ++ blanks ++ char '='

/-- A method, possibly with type parameters before its type. -/
def methodName : Pattern :=
  start ++ blanks ++ BraceLanguage.modifiersBefore modifiers ++
    opt (char '<' ++ star (noneOf ">") ++ char '>' ++ blanks1) ++ BraceLanguage.methodName

def naming : NamingConvention where
  targets :=
    [⟨"Constant", constantName, [.upperSnake], .upperSnake, none⟩,
     ⟨"Class", BraceLanguage.namedAfter typeKinds, [.pascal], .pascal, none⟩,
     ⟨"Method", methodName, [.camel], .camel, none⟩]
  keywords := profile.keywordTexts
  style := profile.style

def resources : ResourceLifecycle where
  acquire :=
    [wordEdge ++ text "new" ++ blanks1 ++ group "resource" (words ["FileInputStream",
      "FileOutputStream", "FileReader", "FileWriter", "BufferedReader", "BufferedWriter",
      "PrintWriter", "Scanner", "Socket"]) ++ blanks ++ char '(',
     wordEdge ++ text "DriverManager." ++ group "resource" (text "getConnection") ++ blanks ++
      char '(']
  managed := [start ++ blanks ++ text "try" ++ blanks ++ char '(']
  managedBy := "try-with-resources"
  headerAbove := true
  style := profile.style

def rules : List Rule :=
  [Terminator.rule
     { style := profile.style, directives := ["import ".toList, "package ".toList]
       exemptStarts := [['@']] },
   ExtraTerminator.rule profile.style,
   OperatorSpacing.rule
     { table := operators, style := profile.style
       skipped := ["import ", "package ", "@"].map String.toList },
   IndentationStep.rule { unit := profile.indentUnit, style := profile.style },
   EmptyLine.rule,
   BraceOwnLine.rule { style := profile.style, lambdaArrows := [['-', '>']] },
   collisions.rule,
   ControlStructure.rule { style := profile.style, unit := profile.indentUnit },
   TryHandler.rule { style := profile.style, allowsResources := true },
   SwitchDefault.rule profile.style,
   naming.rule,
   DuplicateLines.rule { style := profile.style },
   resources.rule]

end Java

end LineLint
