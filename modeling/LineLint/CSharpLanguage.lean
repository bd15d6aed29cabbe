import LineLint.BraceLanguage
import LineLint.BracePlacement
import LineLint.Comparison
import LineLint.ControlStructure
import LineLint.DuplicateLines
import LineLint.EmptyLine
import LineLint.IndentationStep
import LineLint.KeywordCollision
import LineLint.NamingConvention
import LineLint.OperatorSpacing
import LineLint.Profile
import LineLint.ResourceLifecycle
import LineLint.ScopeRules
import LineLint.Terminator
import LineLint.VariableIdiom

/-!
# C#

The profile and the rules for C#: braces on lines of their own, Pascal case for types and methods.
-/

namespace LineLint

namespace CSharp

open Pattern

def keywords : List String :=
  ["abstract", "as", "base", "bool", "break", "byte", "case", "catch", "char", "checked", "class",
   "const", "continue", "decimal", "default", "delegate", "do", "double", "else", "enum", "event",
   "explicit", "extern", "false", "finally", "fixed", "float", "for", "foreach", "goto", "if",
   "implicit", "in", "int", "interface", "internal", "is", "lock", "long", "namespace", "new",
   "null", "object", "operator", "out", "override", "params", "private", "protected", "public",
   "readonly", "ref", "return", "sbyte", "sealed", "short", "sizeof", "stackalloc", "static",
   "string", "struct", "switch", "this", "throw", "true", "try", "typeof", "uint", "ulong",
   "unchecked", "unsafe", "ushort", "using", "virtual", "void", "volatile", "while"]

def usingDirective : Pattern :=
  lineStart ++ blanks ++ text "using" ++ blanks1 ++ plus (one fun c => isWordChar c || c == '.') ++
    blanks ++ char ';'

def profile : Profile where
  id := "csharp"
  displayName := "C#"
  extensions := [".cs"]
  keywords := keywords
  signals := {
    positive := [.all [.pattern usingDirective, .word "namespace "],
      .all [.pattern usingDirective, .word "class "]]
    negative := [.word "#include", .word "import java."] }

def operators : OperatorTable where
  binary :=
    ["??=", "<<=", ">>=", "==", "!=", "<=", ">=", "&&", "||", "??", "=>", "+=", "-=", "*=", "/=",
     "%=", "&=", "|=", "^=", "<<", ">>", "=", "+", "-", "*", "/", "%", "<", ">"].map String.toList

def primitives : List String :=
  ["bool", "byte", "sbyte", "char", "decimal", "double", "float", "int", "uint", "long", "ulong",
   "short", "ushort", "string", "object"]

def modifiers : List String :=
  ["public", "private", "protected", "internal", "static", "virtual", "override", "sealed", "async",
   "extern", "new", "partial", "abstract", "unsafe"]

def localName : Pattern :=
  BraceLanguage.namedAfter ("var" :: primitives) ++ blanks ++ beforeAny "=;,\x7b)"

/-- A method with a return type that needs no declaration. -/
def method : Pattern :=
  wordEdge ++ (words ("void" :: primitives) |||
    (text "Task" ++ opt (char '<' ++ plus wordChar ++ char '>'))) ++ blanks1 ++
    BraceLanguage.declaredName ++ blanks ++ char '('

def collisions : KeywordCollision where
  language := profile.displayName
  keywords := profile.keywordTexts
  declarations :=
    [localName, BraceLanguage.namedAfter ["class", "struct", "interface", "enum"], method]
  parameterLists := [BraceLanguage.methodParameters]
  style := profile.style

def naming : NamingConvention where
  targets :=
    [{ kind := "Class"
       pattern := BraceLanguage.namedAfter ["class", "struct", "interface", "enum", "record"]
       accepted := [.pascal]
       convention := .pascal },
     { kind := "Method"
       pattern := start ++ blanks ++ BraceLanguage.modifiersBefore modifiers ++
         BraceLanguage.methodName
       accepted := [.pascal]
       convention := .pascal }]
  keywords := profile.keywordTexts
  style := profile.style

def resources : ResourceLifecycle where
  acquire :=
    [wordEdge ++ text "new" ++ blanks1 ++ group "resource" (words ["FileStream", "StreamReader",
      "StreamWriter", "BinaryReader", "BinaryWriter", "SqlConnection", "SqlCommand", "MemoryStream",
      "HttpClient"]) ++ blanks ++ char '(']
  managed := [start ++ blanks ++ text "using" ++ wordEdge,
    wordEdge ++ text "using" ++ blanks ++ char '(']
  managedBy := "a using statement"
  mark := some "using ".toList
  style := profile.style

def rules : List Rule :=
  [OperatorSpacing.rule { table := operators, style := profile.style, skipped := [['#']] },
   Terminator.rule { style := profile.style, directives := ["using ".toList] },
   ExtraTerminator.rule profile.style,
   ControlStructure.rule { style := profile.style, unit := profile.indentUnit },
   IndentationStep.rule { unit := profile.indentUnit, style := profile.style },
   EmptyLine.rule,
   naming.rule,
   VarUsage.rule profile.style,
   BraceOwnLine.rule { style := profile.style },
   NullComparison.nullRule profile.style,
   collisions.rule,
   RedundantEquals.rule profile.style,
   TryHandler.rule { style := profile.style },
   SwitchDefault.rule profile.style,
   DuplicateLines.rule { style := profile.style },
   resources.rule]

end CSharp

end LineLint
