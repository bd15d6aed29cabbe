import LineLint.Spec

/-!
# The catalog of specifications

Every code that a check reports, with its severity, category and texts. Severity is "warning" and
category is "Formatting" unless an entry says otherwise.
-/

namespace LineLint

namespace Spec

def emptyLine : Spec where
  code := "LINT_FORMAT_EMPTY_LINE"
  message := [.text "Empty line detected"]
  hint := [.text "Remove empty line"]
  severity := "info"

def indentation : Spec where
  code := "LINT_FORMAT_INDENTATION"
  message :=
    [.text "Indent must be multiple of ", .slot "unit", .text " spaces (got ", .slot "width",
     .text ")"]
  hint := [.text "Use ", .slot "unit", .text " spaces per indentation level"]

def indentationConsistency : Spec where
  code := "LINT_FORMAT_INDENTATION_CONSISTENCY"
  message :=
    [.text "Inconsistent indentation: expected ", .slot "expected", .text " spaces, got ",
     .slot "width"]
  hint := [.text "Indent nested blocks by ", .slot "unit", .text " spaces"]

def operatorSpacing : Spec where
  code := "LINT_FORMAT_OPERATOR_SPACING"
  message := [.text "Missing spaces around operator '", .slot "operator", .text "'"]
  hint := [.text "Add spaces around operators"]

def commaSpacing : Spec where
  code := "LINT_FORMAT_COMMA_SPACING"
  message := [.text "Missing space after comma"]
  hint := [.text "Add a space after each comma"]

def bracePlacement : Spec where
  code := "LINT_FORMAT_BRACE_PLACEMENT"
  message := [.text "Opening brace should be on its own line"]
  hint := [.text "Move the opening brace to the next line"]

def braceSameLine : Spec where
  code := "LINT_FORMAT_BRACE_SAME_LINE"
  message := [.text "Opening brace should be on the same line as its statement"]
  hint := [.text "Move the opening brace to the end of the previous line"]

def missingTerminator : Spec where
  code := "LINT_SYNTAX_MISSING_TERMINATOR"
  message := [.text "Missing semicolon at end of statement"]
  hint := [.text "Add ';' at the end of the statement"]
  severity := "error"
  category := "Syntax"

def extraTerminator : Spec where
  code := "LINT_SYNTAX_EXTRA_TERMINATOR"
  message := [.text "Unnecessary semicolon after control structure"]
  hint := [.text "Remove the semicolon after the condition"]
  severity := "error"
  category := "Syntax"

def controlStructure : Spec where
  code := "LINT_SYNTAX_CONTROL_STRUCTURE"
  message := [.text "Control structure missing parentheses or braces"]
  hint := [.text "Add parentheses around the condition and braces around the body"]
  severity := "error"
  category := "Syntax"

def tryHandler : Spec where
  code := "LINT_SYNTAX_TRY_HANDLER"
  message := [.text "try block without catch or finally"]
  hint := [.text "Add catch or finally block"]
  severity := "error"
  category := "Syntax"

def switchDefault : Spec where
  code := "LINT_PRACTICE_SWITCH_DEFAULT"
  message := [.text "switch statement missing default case"]
  hint := [.text "Add default case"]
  category := "Best Practice"

def duplicateLines : Spec where
  code := "LINT_QUALITY_DUPLICATE_LINES"
  message := [.text "Found ", .slot "count", .text " duplicate lines of code"]
  hint := [.text "Extract repeated code into a function or loop"]
  category := "Code Quality"

def keywordCollision : Spec where
  code := "LINT_NAMING_KEYWORD_COLLISION"
  message :=
    [.text "Identifier '", .slot "name", .text "' conflicts with ", .slot "language",
     .text " keyword"]
  hint := [.text "Rename '", .slot "name", .text "' to '", .slot "name", .text "_'"]
  severity := "error"
  category := "Naming"

def namingConvention : Spec where
  code := "LINT_NAMING_CONVENTION"
  message :=
    [.slot "kind", .text " name '", .slot "name", .text "' should use ", .slot "convention"]
  hint := [.text "Rename to '", .slot "fixed", .text "'"]
  category := "Naming"

def resourceLifecycle : Spec where
  code := "LINT_RESOURCE_LIFECYCLE"
  message := [.text "Resource '", .slot "resource", .text "' is opened but never closed"]
  hint := [.text "Release the resource explicitly or use ", .slot "managed"]
  category := "Resource Management"

def noneComparison : Spec where
  code := "LINT_PYTHON_NONE_COMPARISON"
  message := [.text "Comparison to None should use '", .slot "operator", .text "'"]
  hint := [.text "Use 'is None' or 'is not None'"]
  category := "Best Practice"

def missingColon : Spec where
  code := "LINT_PYTHON_MISSING_COLON"
  message := [.text "Missing colon after '", .slot "keyword", .text "' statement"]
  hint := [.text "Add ':' at the end of the line"]
  severity := "error"
  category := "Syntax"

def indentedBlock : Spec where
  code := "LINT_PYTHON_EXPECTED_INDENTED_BLOCK"
  message := [.text "Expected an indented block"]
  hint := [.text "Indent the block body by ", .slot "unit", .text " spaces"]
  severity := "error"
  category := "Indentation"

def missingCondition : Spec where
  code := "LINT_PYTHON_MISSING_CONDITION"
  message := [.text "'", .slot "keyword", .text "' statement is missing a condition"]
  hint := [.text "Add a condition before ':'"]
  severity := "error"
  category := "Syntax"

def emptyIf : Spec where
  code := "LINT_PYTHON_EMPTY_IF"
  message := [.text "Empty if statement body"]
  hint := [.text "Add logic to the if body or remove the statement"]
  category := "Code Quality"

def importPlacement : Spec where
  code := "LINT_PYTHON_IMPORT_PLACEMENT"
  message := [.text "Import should be at the top of the file"]
  hint := [.text "Move imports to the beginning of the file"]
  category := "PEP8"

def multipleImports : Spec where
  code := "LINT_PYTHON_MULTIPLE_IMPORTS"
  message := [.text "Multiple imports on one line"]
  hint := [.text "Put each import on a separate line"]
  category := "PEP8"

def varUsage : Spec where
  code := "LINT_CSHARP_VAR_USAGE"
  message := [.text "Use 'var' when the type is obvious from the initializer"]
  hint := [.text "Replace '", .slot "type", .text "' with 'var'"]
  severity := "info"
  category := "Code Style"

def nullComparison : Spec where
  code := "LINT_CSHARP_NULL_COMPARISON"
  message := [.text "Use '", .slot "operator", .text "' for null checks"]
  hint := [.text "Replace the equality operator with a pattern match"]
  severity := "info"
  category := "Null Safety"

def redundantEquals : Spec where
  code := "LINT_CSHARP_REDUNDANT_EQUALS"
  message := [.text "Too many '=' characters in condition"]
  hint := [.text "Use '==' for comparison"]
  severity := "error"
  category := "Syntax"

def strictEquality : Spec where
  code := "LINT_JS_STRICT_EQUALITY"
  message := [.text "Use '", .slot "strict", .text "' instead of '", .slot "loose", .text "'"]
  hint := [.text "Strict comparison avoids implicit type coercion"]
  category := "Type Safety"

def varDeclaration : Spec where
  code := "LINT_JS_VAR_DECLARATION"
  message := [.text "Use 'let' or 'const' instead of 'var'"]
  hint := [.text "Replace 'var' with 'let' or 'const'"]
  category := "Modern JS"

def strictMode : Spec where
  code := "LINT_JS_STRICT_MODE"
  message := [.text "Missing 'use strict' directive"]
  hint := [.text "Add 'use strict'; at the beginning of the file"]
  severity := "info"
  category := "Best Practice"

def documentStructure : Spec where
  code := "LINT_HTML_DOCUMENT_STRUCTURE"
  message := [.text "Missing ", .slot "element"]
  hint := [.text "Add ", .slot "element"]
  category := "Structure"

def tagClosing : Spec where
  code := "LINT_HTML_TAG_CLOSING"
  message := [.text "Unclosed <", .slot "tag", .text "> tag"]
  hint := [.text "Add closing </", .slot "tag", .text "> tag"]
  severity := "error"
  category := "Syntax"

def tagCase : Spec where
  code := "LINT_HTML_TAG_CASE"
  message :=
    [.text "HTML ", .slot "kind", .text " should be lowercase: '", .slot "name", .text "'"]
  hint := [.text "Convert ", .slot "kind", .text " to lowercase"]

def attributeQuotes : Spec where
  code := "LINT_HTML_ATTRIBUTE_QUOTES"
  message := [.text "Attribute '", .slot "attribute", .text "' ", .slot "problem"]
  hint := [.text "Use double quotes for HTML attributes"]
  category := "Validation"

def emptyElement : Spec where
  code := "LINT_HTML_EMPTY_ELEMENT"
  message := [.text "Empty ", .slot "tag", .text " tag without content"]
  hint := [.text "Remove empty tag or add content"]
  severity := "info"
  category := "Code Quality"

def imageDimensions : Spec where
  code := "LINT_HTML_IMAGE_DIMENSIONS"
  message := [.text "Image missing ", .slot "missing"]
  hint := [.text "Add width and height attributes to prevent layout shifts"]
  severity := "info"
  category := "Performance"

def tagSpelling : Spec where
  code := "LINT_HTML_TAG_SPELLING"
  message := [.text "Unknown or misspelled tag '", .slot "tag", .text "'"]
  hint := [.text "Did you mean: ", .slot "suggestion", .text "?"]
  category := "Validation"

def requiredAttribute : Spec where
  code := "LINT_HTML_REQUIRED_ATTRIBUTE"
  message :=
    [.text "<", .slot "tag", .text "> missing required attribute '", .slot "attribute", .text "'"]
  hint := [.text "Add ", .slot "attribute", .text "=\"\" attribute"]
  category := "Validation"

def tableStructure : Spec where
  code := "LINT_HTML_TABLE_STRUCTURE"
  message := [.slot "problem"]
  hint := [.slot "hint"]
  category := "Structure"

def all : List Spec :=
  [emptyLine, indentation, indentationConsistency, operatorSpacing, commaSpacing, bracePlacement,
   braceSameLine, missingTerminator, extraTerminator, controlStructure, tryHandler, switchDefault,
   duplicateLines, keywordCollision, namingConvention, resourceLifecycle, noneComparison,
   missingColon, indentedBlock, missingCondition, emptyIf, importPlacement, multipleImports,
   varUsage, nullComparison, redundantEquals, strictEquality, varDeclaration, strictMode,
   documentStructure, tagClosing, tagCase, attributeQuotes, emptyElement, imageDimensions,
   tagSpelling, requiredAttribute, tableStructure]

/-- The specification of a code. -/
def ofCode? (code : String) : Option Spec := all.find? fun s => s.code == code

/-- The codes whose fix moves a line to the top of the file instead of changing it in place. -/
def relocates (code : String) : Bool := code == importPlacement.code

end Spec

end LineLint
