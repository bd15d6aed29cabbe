import LineLint.LiteralMask

/-!
# Declarations found by patterns

A declaration pattern captures the declared name in a group `name` and possibly the word before it
in a group `type`. A statement word such as `return` in that place shows that nothing is declared.
-/

namespace LineLint

namespace Declaration

/-- Words that can stand before an identifier without declaring it. -/
def statementWords : List Text :=
  ["return", "else", "case", "goto", "throw", "new", "delete", "yield", "await", "typeof",
   "instanceof", "in", "of", "is", "as", "do", "using", "import", "package", "namespace", "break",
   "continue", "sizeof", "not", "and", "or"].map String.toList

def modifierWords : List Text :=
  ["public", "private", "protected", "internal", "static", "virtual", "override", "abstract",
   "async", "sealed", "extern", "unsafe", "partial", "final", "synchronized", "native", "default",
   "readonly", "const", "export"].map String.toList

/-- Whether the word before the name is a statement word. -/
def followsStatementWord (m : Match) : Bool :=
  (m.capture? "type").any fun c => statementWords.contains c.text

def followsModifier (m : Match) : Bool :=
  (m.capture? "type").any fun c => modifierWords.contains c.text

end Declaration

end LineLint
