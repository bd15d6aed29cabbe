import LineLint.Fault
import LineLint.Value

/-!
# Run options

Which rules are left out of a run, whether fixes are verified by a second run, and how rules are
spread over workers, which has no influence on what they report. Options come from a preset and
from a table whose entries override it.
-/

namespace LineLint

structure LintOptions where
  parallel : Bool := false
  maxWorkers : Option Int := none
  /-- The codes of the rules that are left out. -/
  ignore : List Text := []
  verifyFixes : Bool := true

inductive Preset where
  | default | fast
  deriving DecidableEq

namespace Preset

def name : Preset → String
  | default => "default"
  | fast => "fast"

def find? (t : Text) : Option Preset := [default, fast].find? fun p => p.name.toList == t

def ofName? (t : Text) : Except Fault Preset :=
  match find? t with
  | some p => .ok p
  | none => .error (.notAMember t "OptionsPreset")

end Preset

namespace LintOptions

def ofPreset : Preset → LintOptions
  | .default => {}
  | .fast => { parallel := true, verifyFixes := false }

abbrev Table := List (Text × Value)

def keys : List Text :=
  ["preset", "parallel", "max-workers", "ignore", "verify-fixes"].map String.toList

def textLe (s t : Text) : Bool := String.ofList s ≤ String.ofList t

def base (table : Table) : Except Fault LintOptions :=
  match Value.lookup table "preset".toList with
  | none => .ok {}
  | some (.text t) =>
      match Preset.find? t with
      | some p => .ok (ofPreset p)
      | none => .error (.unknownPreset t)
  | some v => .error (.unknownPreset v.shown)

def boolean (table : Table) (key : String) (default : Bool) : Except Fault Bool :=
  match Value.lookup table key.toList with
  | none => .ok default
  | some (.bool b) => .ok b
  | some v => .error (.optionNotBoolean key.toList v.written)

def workers (table : Table) (default : Option Int) : Except Fault (Option Int) :=
  match Value.lookup table "max-workers".toList with
  | none => .ok default
  | some .null => .ok none
  | some (.integer n) =>
      if n < 1 then .error (.workersNotPositive (Text.ofInt n)) else .ok (some n)
  | some v => .error (.workersNotPositive v.written)

def codeOf? : Value → Option Text
  | .text t => some t
  | _ => none

def ignored (table : Table) : Except Fault (List Text) :=
  match Value.lookup table "ignore".toList with
  | none => .ok []
  | some (.list items) =>
      match items.mapM codeOf? with
      | none => .error .ignoreNotCodes
      | some codes =>
          let unmarked := codes.filter fun code => !"LINT_".toList.isPrefixOf code
          if unmarked.isEmpty then .ok codes.eraseDups
          else .error (.ignoreWithoutMark unmarked)
  | some _ => .error .ignoreNotCodes

/-- The options of a table. Of several faults the one of the earliest option is reported. -/
def ofTable (table : Table) : Except Fault LintOptions := do
  let unknown := (table.map (·.1)).filter fun key => !keys.contains key
  if !unknown.isEmpty then .error (.unknownOptions (unknown.eraseDups.mergeSort textLe))
  else
    let base ← base table
    let parallel ← boolean table "parallel" base.parallel
    let verifyFixes ← boolean table "verify-fixes" base.verifyFixes
    let maxWorkers ← workers table base.maxWorkers
    let ignore ← ignored table
    return ⟨parallel, maxWorkers, ignore, verifyFixes⟩

end LintOptions

end LineLint
