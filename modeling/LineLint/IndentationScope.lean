import LineLint.Indentation
import LineLint.LineScan
import LineLint.Rule

/-!
# Indentation by scopes

The indentation that a line should have is the sum over the braces open before it. A line that ends
with an opening brace opens a scope, and one that starts with a closing brace leaves the innermost.
Scopes of some kinds, such as namespaces, do not indent their contents.
-/

namespace LineLint

structure IndentationScope where
  unit : Int := 4
  style : LiteralStyle := {}
  flatScopes : List Text := ["namespace".toList]

namespace IndentationScope

/-- A label that stands one level out. -/
def accessLabel : Pattern :=
  .start ++ .words ["public", "private", "protected"] ++ .blanks ++ .char ':' ++ .stop

def isExempt (r : IndentationScope) (stripped masked : Text) (opens : Bool) : Bool :=
  stripped.head? == some '#' || r.style.isCommentLine stripped ||
    accessLabel.matchesStart masked ||
    (!opens && masked.contains '(' && masked.contains ')' && masked.contains '{')

/-- Checks the lines from `index` on; `scopes` holds what each open scope indents, the innermost
first. -/
def checkFrom (r : IndentationScope) (index : Nat) (scopes : List Int) :
    List (Text × Bool) → Except Fault (List Finding)
  | [] => .ok []
  | (line, continued) :: rest => do
      let stripped := line.trim
      if stripped.isEmpty then checkFrom r (index + 1) scopes rest
      else
        let masked := Text.trim (r.style.codeMask line)
        let opens := masked.getLast? == some '{'
        let scopes := if masked.head? == some '}' then scopes.drop 1 else scopes
        let expected := scopes.foldr (· + ·) 0
        let width : Int := ← Indentation.measureLine r.unit line
        let found : List Finding :=
          if width != expected && !continued && !r.isExempt stripped masked opens then
            [{ index
               replacement := Text.spaces expected ++ stripped
               fields := [("expected", Text.ofInt expected), ("width", Text.ofInt width),
                 ("unit", Text.ofInt r.unit)] }]
          else []
        let scopes :=
          if opens then (if masked.startsWithAny r.flatScopes then 0 else r.unit) :: scopes
          else scopes
        return found ++ (← checkFrom r (index + 1) scopes rest)

def check (r : IndentationScope) (lines : List Text) : Except Fault (List Finding) :=
  r.checkFrom 0 [] (lines.zip (LineScan.continued r.style lines))

def rule (r : IndentationScope) : Rule :=
  .ofFindings .indentationConsistency ⟨"formatIndentationConsistency", "style", "heuristic"⟩ r.check

end IndentationScope

end LineLint
