import LineLint.LineScan
import LineLint.Rule

/-!
# Resource lifecycles

A resource that is acquired is released within a few lines, or its scope releases it. Acquisition
patterns capture the kind of resource in a group `resource`. Where a declaration can be marked as
managed, the fix puts the mark in front of it.
-/

namespace LineLint

structure ResourceLifecycle where
  acquire : List Pattern
  /-- Marks on the acquiring line that make the release automatic. -/
  managed : List Pattern
  managedBy : String
  release : Pattern :=
    .char '.' ++ .words ["close", "Close", "Dispose"] ++ .blanks ++ .char '('
  /-- Whether the code line above is searched for those marks too. -/
  headerAbove : Bool := false
  mark : Option Text := none
  window : Nat := 10
  style : LiteralStyle := {}

namespace ResourceLifecycle

def isManaged (r : ResourceLifecycle) (lines : List Text) (index : Nat) (code : Text) : Bool :=
  let above := match LineScan.lastCode? lines index with
    | some i => if r.headerAbove then [r.style.codeMask (lines.getD i [])] else []
    | none => []
  r.managed.any fun p => (code :: above).any p.occursIn

def isReleased (r : ResourceLifecycle) (lines : List Text) (index : Nat) : Bool :=
  ((lines.drop index).take (r.window + 1)).any fun line =>
    r.release.occursIn (r.style.codeMask line)

/-- The declaration with its mark, if the language has one and the line is a declaration. -/
def marked? (r : ResourceLifecycle) (line code : Text) : Option Text :=
  r.mark.bind fun mark =>
    if code.getLast? == some ';' && code.contains '=' then
      some (line.indentation ++ mark ++ line.trimLeft)
    else none

def checkLine (r : ResourceLifecycle) (lines : List Text) (index : Nat) (line : Text) :
    Option Finding := do
  let code := r.style.codeMask line
  let m ← r.acquire.findSome? fun p => p.search? code
  if r.isManaged lines index code || r.isReleased lines index then none
  else some {
    index
    replacement := r.marked? line code
    fields := [("resource", m.text "resource"), ("managed", r.managedBy.toList)] }

def check (r : ResourceLifecycle) (lines : List Text) : List Finding :=
  Rule.eachLine (fun index line => (r.checkLine lines index line).toList) lines

def rule (r : ResourceLifecycle) : Rule :=
  .ofCheck .resourceLifecycle ⟨"resourceLifecycle", "heuristic", "heuristic"⟩ r.check

end ResourceLifecycle

end LineLint
