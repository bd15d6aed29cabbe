import LineLint.LiteralScan
import LineLint.PatternSearch
import LineLint.Rule

/-!
# Strict mode

A script states strict mode before its first statement. A module is strict without saying so, and
any line that imports or exports makes the text a module.
-/

namespace LineLint

namespace StrictMode

def directive : Pattern :=
  .group "quote" (.oneOf "'\"") ++ .text "use strict" ++ .again "quote" (· == ·)

def moduleLine : Pattern := .start ++ .blanks ++ .words ["import", "export"] ++ .wordEdge

def isStatement (style : LiteralStyle) (line : Text) : Bool :=
  let stripped := line.trim
  !stripped.isEmpty && !(['#', '!'].isPrefixOf stripped) && !style.isCommentLine stripped

def check (style : LiteralStyle) (lines : List Text) : List Finding :=
  if lines.any fun line => directive.occursIn line || moduleLine.matchesStart line then []
  else match lines.zipIdx.find? fun (line, _) => isStatement style line with
    | none => []
    | some (line, index) =>
        [{ index, replacement := "'use strict';\n".toList ++ line.trim }]

def rule (style : LiteralStyle) : Rule :=
  .ofCheck .strictMode ⟨"jsStrictMode", "style", "policy"⟩ (check style)

end StrictMode

end LineLint
