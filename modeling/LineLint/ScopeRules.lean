import LineLint.Indentation
import LineLint.LineScan
import LineLint.Rule

/-!
# Scopes that need a clause

A `try` needs a handler behind its scope, and a `switch` needs a default clause inside it. Scopes
are found by braces, or for `try` also by indentation.
-/

namespace LineLint

/-- How the blocks of a language are delimited. -/
inductive BlockMode where
  | braces | indentation
  deriving DecidableEq

structure TryHandler where
  mode : BlockMode := .braces
  style : LiteralStyle := {}
  handlers : List String := ["catch", "finally"]
  /-- Whether a `try` with resources in parentheses needs no handler. -/
  allowsResources : Bool := false
  unit : Int := 4

namespace TryHandler

def tryColon : Pattern := .start ++ .text "try" ++ .blanks ++ .char ':'

def tryWord : Pattern := .start ++ .text "try" ++ .wordEdge

def tryResources : Pattern := .start ++ .text "try" ++ .blanks ++ .char '('

/-- A handler right behind a closing brace. -/
def handlerAfterBrace (handlers : List String) : Pattern :=
  .char '}' ++ .blanks ++ .words handlers ++ .wordEdge

def indentedHandler : Pattern := .start ++ .words ["except", "finally"] ++ .wordEdge

def isHandledByBraces (r : TryHandler) (lines : List Text) (index : Nat) (code : Text) : Bool :=
  (r.allowsResources && tryResources.matchesStart code) ||
    match (LineScan.scopeAt r.style lines index).close with
    | none => true
    | some offset =>
        let close := index + offset
        (handlerAfterBrace r.handlers).occursIn (r.style.codeMask (lines.getD close [])) ||
          match LineScan.nextCode? lines (close + 1) with
          | none => false
          | some i => (lines.getD i []).trim.startsWithAny (r.handlers.map String.toList)

/-- Whether the first code line that is not indented deeper than the `try` is its handler. -/
def isHandledByIndentation (r : TryHandler) (own : Nat) : List Text → Bool
  | [] => false
  | line :: rest =>
      let stripped := line.trim
      let width := Indentation.lineWidth r.unit line
      if stripped.isEmpty || r.style.isCommentLine stripped || own < width then
        isHandledByIndentation r own rest
      else width == own && indentedHandler.matchesStart stripped

def isHandled (r : TryHandler) (lines : List Text) (index : Nat) (line : Text) : Bool :=
  let code := Text.trim (r.style.codeMask line)
  match r.mode with
  | .indentation =>
      !tryColon.matchesStart code ||
        r.isHandledByIndentation (Indentation.lineWidth r.unit line) (lines.drop (index + 1))
  | .braces => !tryWord.matchesStart code || r.isHandledByBraces lines index code

def check (r : TryHandler) (lines : List Text) : List Finding :=
  Rule.eachLine (fun index line => if r.isHandled lines index line then [] else [{ index }]) lines

def rule (r : TryHandler) : Rule :=
  .ofCheck .tryHandler ⟨"syntaxTryHandler", "correctness", "heuristic"⟩ r.check

end TryHandler

namespace SwitchDefault

def switchHead : Pattern := .start ++ .text "switch" ++ .blanks ++ .char '('

def defaultLabel : Pattern :=
  .start ++ .text "default" ++ .blanks ++ .words [":", "->"]

def startsSwitch (style : LiteralStyle) (line : Text) : Bool :=
  let code := Text.trim (style.codeMask line)
  switchHead.matchesStart code && code.getLast? != some ';'

/-- Whether a line inside the scope, at its own depth, starts with a default label. -/
def hasDefault (style : LiteralStyle) (lines : List Text) (index : Nat)
    (visited : List (Nat × Int)) : Bool :=
  visited.any fun (offset, depth) => 0 < offset && depth == 1 &&
    defaultLabel.matchesStart (Text.trim (style.codeMask (lines.getD (index + offset) [])))

def check (style : LiteralStyle) (lines : List Text) : List Finding :=
  Rule.eachLine (fun index line =>
    if !startsSwitch style line then []
    else
      let scope := LineScan.scopeAt style lines index
      if scope.close.isNone || hasDefault style lines index scope.visited then []
      else [{ index }]) lines

def rule (style : LiteralStyle) : Rule :=
  .ofCheck .switchDefault ⟨"practiceSwitchDefault", "correctness", "policy"⟩ (check style)

end SwitchDefault

end LineLint
