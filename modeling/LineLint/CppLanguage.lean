import LineLint.BraceLanguage
import LineLint.BracePlacement
import LineLint.CommaSpacing
import LineLint.ControlStructure
import LineLint.DuplicateLines
import LineLint.EmptyLine
import LineLint.IndentationScope
import LineLint.KeywordCollision
import LineLint.Profile
import LineLint.ResourceLifecycle
import LineLint.ScopeRules
import LineLint.Terminator

/-!
# C++

The profile and the rules for C++: indentation by scopes, with namespaces flat.
-/

namespace LineLint

namespace Cpp

open Pattern

def keywords : List String :=
  ["alignas", "alignof", "and", "and_eq", "asm", "auto", "bitand", "bitor", "bool", "break", "case",
   "catch", "char", "char16_t", "char32_t", "class", "compl", "const", "constexpr", "const_cast",
   "continue", "decltype", "default", "delete", "do", "double", "dynamic_cast", "else", "enum",
   "explicit", "export", "extern", "false", "float", "for", "friend", "goto", "if", "inline", "int",
   "long", "mutable", "namespace", "new", "noexcept", "not", "not_eq", "nullptr", "operator", "or",
   "or_eq", "private", "protected", "public", "register", "reinterpret_cast", "return", "short",
   "signed", "sizeof", "static", "static_assert", "static_cast", "struct", "switch", "template",
   "this", "thread_local", "throw", "true", "try", "typedef", "typeid", "typename", "union",
   "unsigned", "using", "virtual", "void", "volatile", "wchar_t", "while", "xor", "xor_eq"]

def wholeWord (s : String) : Pattern := wordEdge ++ text s ++ wordEdge

def profile : Profile where
  id := "cpp"
  displayName := "C++"
  extensions := [".cpp", ".h", ".hpp", ".cc", ".cxx"]
  keywords := keywords
  signals := {
    positive := [.word "#include", .word "std::", .word "namespace ",
      .pattern (Cpp.wholeWord "cout"), .pattern (Cpp.wholeWord "cin"),
      .all [.pattern (Cpp.wholeWord "new"), .pattern (Cpp.wholeWord "delete")]] }

def operators : OperatorTable where
  binary :=
    ["<<=", ">>=", "==", "!=", "<=", ">=", "&&", "||", "+=", "-=", "*=", "/=", "%=", "&=", "|=",
     "^=", "<<", ">>", "=", "+", "-", "*", "/", "%", "<", ">"].map String.toList
  verbatim := ["++", "--", "->", "::"].map String.toList

def types : List String :=
  ["int", "char", "float", "double", "bool", "void", "long", "short", "unsigned", "signed", "auto",
   "size_t", "string", "std::string"]

def isTypeChar (c : Char) : Bool := isWordChar c || ":<>*&".toList.contains c

/-- A variable or function of a basic type, which may be a pointer or a reference. -/
def variableName : Pattern :=
  wordEdge ++ words types ++ blanks ++ opt (oneOf "*&") ++ blanks1 ++ BraceLanguage.declaredName ++
    blanks ++ beforeAny "=;,()\x7b["

def functionParameters : Pattern :=
  start ++ blanks ++ star (plus (one isTypeChar) ++ blanks1) ++
    group "type" (plus (one isTypeChar)) ++ blanks1 ++ opt (oneOf "*&") ++ nameStart ++
    star (one fun c => isWordChar c || c == ':') ++ blanks ++ char '(' ++
    group "params" (star (noneOf ")")) ++ char ')'

def collisions : KeywordCollision where
  language := profile.displayName
  keywords := profile.keywordTexts
  declarations :=
    [variableName,
     start ++ blanks ++ words ["class", "struct", "union", "enum"] ++ blanks1 ++
       BraceLanguage.declaredName]
  parameterLists := [functionParameters]
  style := profile.style

def resources : ResourceLifecycle where
  acquire :=
    [wordEdge ++ opt (text "std::") ++ group "resource" (opt (oneOf "io") ++ text "fstream") ++
      blanks1 ++ plus wordChar ++ blanks ++ oneOf "(\x7b"]
  managed := []
  managedBy := "a scoped stream object"
  style := profile.style

def rules : List Rule :=
  [Terminator.rule
     { style := profile.style, directives := ["using ".toList, "typedef ".toList] },
   ExtraTerminator.rule profile.style,
   CommaSpacing.rule { style := profile.style, skipped := [['#']] },
   OperatorSpacing.rule { table := operators, style := profile.style, skipped := [['#']] },
   IndentationScope.rule { unit := profile.indentUnit, style := profile.style },
   EmptyLine.rule,
   BraceOwnLine.rule { style := profile.style, exemptStarts := ["namespace".toList] },
   collisions.rule,
   ControlStructure.rule { style := profile.style, unit := profile.indentUnit },
   TryHandler.rule { style := profile.style, handlers := ["catch"] },
   SwitchDefault.rule profile.style,
   DuplicateLines.rule { style := profile.style },
   resources.rule]

end Cpp

end LineLint
