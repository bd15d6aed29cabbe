import LineLint.Catalog
import LineLint.Compose
import LineLint.LineEdit
import LineLint.Relocation
import LineLint.SourceLines

/-!
# Applying fixes

The fixes of a batch of diagnostics are planned line by line against the lines as they were
inspected, and then applied from the last line to the first. Of the fixes on one line a deletion
wins; several revisions are composed. What cannot be planned or applied is skipped with a reason.
-/

namespace LineLint

structure SkippedFix where
  diagnostic : Diagnostic
  reason : Text

structure FixResult where
  text : Text
  applied : List Diagnostic
  skipped : List SkippedFix

namespace FixResult

/-- The number of different lines that the applied diagnostics name. -/
def changedLines (r : FixResult) : Nat := (r.applied.map (·.line)).eraseDups.length

end FixResult

/-- What a language says about fixing its texts. -/
structure FixSettings where
  indentUnit : Int := 4
  relocatable : Option Pattern := none
  style : LiteralStyle := {}

namespace Fixing

def skipAll (reason : Text) (ds : List Diagnostic) : List SkippedFix := ds.map (⟨·, reason⟩)

/-- The edit for one line, with the diagnostics it carries out and those it leaves out. -/
structure LinePlan where
  edit : LineEdit
  sources : List Diagnostic
  left : List SkippedFix

def planSingle (index : Int) (d : Diagnostic) : LinePlan :=
  let edit :=
    if d.newText.contains '\n' then LineEdit.insertBlock index d.newText false
    else LineEdit.replace index d.newText d.setsIndent
  ⟨edit, [d], []⟩

/-- The first indentation that a diagnostic sets and that differs from that of the line. -/
def chosenIndent? (indent : Text) (ds : List Diagnostic) : Option Text :=
  (ds.find? fun d =>
    d.setsIndent && !d.newText.contains '\n' && d.newText.indentation != indent).map
      fun d => d.newText.indentation

def planSeveral (unit : Int) (index : Int) (line : Text) (group : List Diagnostic) :
    Except Fault LinePlan := do
  let (merged, rejected) := composeRevisions line (group.map (·.newText))
  let left := rejected.filterMap fun position => group[position]?
  let used := (group.zipIdx.filter fun entry => !rejected.contains entry.2).map (·.1)
  let chosen := chosenIndent? line.indentation used
  let indent := chosen.getD line.indentation
  let skipped := skipAll "overlaps an earlier fix on the same line".toList left
  if merged.contains '\n' then
    let block ← Indentation.reindentBlock unit indent (Text.splitOn '\n' merged)
    return ⟨LineEdit.insertBlock index (Text.joinWith ['\n'] block) true, used, skipped⟩
  else return ⟨LineEdit.replace index (indent ++ merged) chosen.isSome, used, skipped⟩

def planLine (unit : Int) (lines : List Text) (index : Int) (group : List Diagnostic) :
    Except Fault LinePlan :=
  match LineEdit.lineAt? lines index with
  | none => .error (.planRange (index + 1) lines.length)
  | some line =>
      let deletions := group.filter (·.isDeletion)
      if !deletions.isEmpty then
        .ok ⟨LineEdit.delete index, deletions,
          skipAll "superseded by a deletion on the same line".toList
            (group.filter fun d => !d.isDeletion)⟩
      else match group with
        | [d] => .ok (planSingle index d)
        | _ => planSeveral unit index line group

/-- Adds a diagnostic to the group of its line index. -/
def addToGroup (d : Diagnostic) : List (Int × List Diagnostic) → List (Int × List Diagnostic)
  | [] => [(d.line - 1, [d])]
  | (index, group) :: rest =>
      if index == d.line - 1 then (index, group ++ [d]) :: rest
      else (index, group) :: addToGroup d rest

/-- Diagnostics by line index, in the order in which the lines are first named. -/
def groupByLine (ds : List Diagnostic) : List (Int × List Diagnostic) :=
  ds.foldl (fun groups d => addToGroup d groups) []

structure Plans where
  plans : List LinePlan
  skipped : List SkippedFix

def planAll (unit : Int) (lines : List Text) : List (Int × List Diagnostic) → Plans
  | [] => ⟨[], []⟩
  | (index, group) :: rest =>
      let others := planAll unit lines rest
      match planLine unit lines index group with
      | .ok plan => ⟨plan :: others.plans, plan.left ++ others.skipped⟩
      | .error fault => ⟨others.plans, skipAll fault.message group ++ others.skipped⟩

/-- The lines after some edits, with what was carried out and what was not. -/
structure Progress where
  lines : List Text
  applied : List Diagnostic
  skipped : List SkippedFix

def applyPlan (unit : Int) (p : Progress) (plan : LinePlan) : Progress :=
  match plan.edit.apply unit p.lines with
  | .ok lines => { p with lines := lines, applied := p.applied ++ plan.sources }
  | .error fault => { p with skipped := p.skipped ++ skipAll fault.message plan.sources }

/-- Plans with the highest line first. -/
def bottomUp (plans : List LinePlan) : List LinePlan :=
  plans.mergeSort fun p q => q.edit.index ≤ p.edit.index

/-- The lines and the pending fixes after relocations, with what those did. -/
structure Relocated where
  lines : List Text
  pending : List Diagnostic
  applied : List Diagnostic
  skipped : List SkippedFix

def relocate (settings : FixSettings) (lines : List Text) (pending : List Diagnostic) : Relocated :=
  let moves := pending.filter fun d => Spec.relocates d.code
  if moves.isEmpty then ⟨lines, pending, [], []⟩
  else
    let others := pending.filter fun d => !Spec.relocates d.code
    match settings.relocatable with
    | none => ⟨lines, others, [], skipAll "no relocation pattern given".toList moves⟩
    | some pattern =>
        let order := Relocation.order pattern settings.style lines
        ⟨order.filterMap fun i => lines[i]?,
          others.map (Relocation.remap (order.map Int.ofNat)), moves, []⟩

end Fixing

open Fixing in
/-- Carries out every diagnostic that has a replacement. -/
def applyFixes (settings : FixSettings) (text : Text) (ds : List Diagnostic) : FixResult :=
  let source := SourceLines.ofText text
  let start := relocate settings source.lines (fixable ds)
  let planned := planAll settings.indentUnit start.lines (groupByLine start.pending)
  let finish := (bottomUp planned.plans).foldl (applyPlan settings.indentUnit)
    ⟨start.lines, start.applied, start.skipped ++ planned.skipped⟩
  ⟨source.renderWith finish.lines, finish.applied, finish.skipped⟩

end LineLint
