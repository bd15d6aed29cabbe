import LineLint.Proofs.PlannedBatch
import LineLint.Proofs.RelocationOrder

/-!
# Fixes act line by line and at once

Whatever a batch holds, the fixed text is made of the outcomes of the lines, in the order that
relocation gives them. The outcome of a line depends on nothing but that line, its own fixes and
the indent unit.
-/

namespace LineLint

structure KeepsFixes (f : Diagnostic → Diagnostic) : Prop where
  replacement_eq : ∀ d, (f d).replacement = d.replacement
  category_eq : ∀ d, (f d).category = d.category

namespace Relocation

theorem keepsFixes_remap (order : List Int) : KeepsFixes (remap order) where
  replacement_eq d := by
    unfold remap
    split <;> rfl
  category_eq d := by
    unfold remap
    split <;> rfl

end Relocation

namespace KeepsFixes

open Fixing

variable {f : Diagnostic → Diagnostic} (h : KeepsFixes f)
include h

theorem newText_eq (d : Diagnostic) : (f d).newText = d.newText := by
  rw [Diagnostic.newText, h.replacement_eq, Diagnostic.newText]

theorem isDeletion_eq (d : Diagnostic) : (f d).isDeletion = d.isDeletion := by
  rw [Diagnostic.isDeletion, h.replacement_eq, Diagnostic.isDeletion]

theorem setsIndent_eq (d : Diagnostic) : (f d).setsIndent = d.setsIndent := by
  rw [Diagnostic.setsIndent, h.category_eq, Diagnostic.setsIndent]

theorem map_newText_eq (group : List Diagnostic) :
    (group.map f).map (·.newText) = group.map (·.newText) := by
  rw [List.map_map]
  exact List.map_congr_left fun d _ => h.newText_eq d

theorem composable_map (line : Text) (group : List Diagnostic) :
    composable line (group.map f) = (composable line group).map f := by
  simp only [composable, h.map_newText_eq, entriesOff, List.zipIdx_map, List.filter_map,
    List.map_map]
  rfl

theorem chosenIndent?_map (indent : Text) (ds : List Diagnostic) :
    chosenIndent? indent (ds.map f) = chosenIndent? indent ds := by
  unfold chosenIndent?
  induction ds with
  | nil => rfl
  | cons d ds ih =>
      simp only [List.map_cons, List.find?_cons, h.newText_eq, h.setsIndent_eq]
      split
      · simp only [Option.map_some, h.newText_eq]
      · exact ih

theorem composedLines_map (unit : Int) (line : Text) (group : List Diagnostic) :
    composedLines unit line (group.map f) = composedLines unit line group := by
  simp only [composedLines, h.map_newText_eq, h.composable_map, h.chosenIndent?_map]

theorem fixedLines_map (unit : Int) (line : Text) (group : List Diagnostic) :
    fixedLines unit line (group.map f) = fixedLines unit line group := by
  have hdel : (group.map f).any (·.isDeletion) = group.any (·.isDeletion) := by
    rw [List.any_map]
    exact List.any_congr rfl h.isDeletion_eq
  unfold fixedLines
  rw [hdel]
  split_ifs
  · rfl
  · match group with
    | [] => rfl
    | [d] => simp only [List.map_cons, List.map_nil, replacedLines, h.newText_eq, h.setsIndent_eq]
    | d :: e :: rest => exact h.composedLines_map unit line (d :: e :: rest)

theorem outcome_map (unit : Int) (line : Text) (group : List Diagnostic) :
    outcome unit line (group.map f) = outcome unit line group := by
  rw [outcome, h.fixedLines_map, outcome]

end KeepsFixes

namespace Fixing

def moves (ds : List Diagnostic) : List Diagnostic :=
  (fixable ds).filter fun d => Spec.relocates d.code

def localFixes (ds : List Diagnostic) : List Diagnostic :=
  (fixable ds).filter fun d => !Spec.relocates d.code

/-- The old indices of the lines, in the order that the lines have after a batch. -/
def lineOrder (settings : FixSettings) (lines : List Text) (ds : List Diagnostic) : List Nat :=
  match settings.relocatable with
  | some pattern =>
      if (moves ds).isEmpty then List.range lines.length
      else Relocation.order pattern settings.style lines
  | none => List.range lines.length

def outcomeAt (unit : Int) (lines : List Text) (ds : List Diagnostic) (index : Nat) : List Text :=
  match lines[index]? with
  | some line => outcome unit line (ofLine (localFixes ds) index)
  | none => []

section Relocate

variable {settings : FixSettings} {ds : List Diagnostic}

theorem localFixes_of_no_moves (h : (moves ds).isEmpty = true) : localFixes ds = fixable ds := by
  refine List.filter_eq_self.mpr fun d hd => ?_
  have hnone := List.filter_eq_nil_iff.mp (List.isEmpty_iff.mp h) d hd
  simpa using hnone

theorem relocate_of_no_moves (h : (moves ds).isEmpty = true) (lines : List Text) :
    relocate settings lines (fixable ds) = ⟨lines, localFixes ds, [], []⟩ := by
  rw [localFixes_of_no_moves h]
  exact if_pos h

theorem relocate_of_none (h : (moves ds).isEmpty = false) (hnone : settings.relocatable = none)
    (lines : List Text) :
    relocate settings lines (fixable ds) =
      ⟨lines, localFixes ds, [], skipAll "no relocation pattern given".toList (moves ds)⟩ := by
  refine (if_neg (Bool.not_eq_true _ ▸ h)).trans ?_
  rw [hnone]
  rfl

theorem relocate_of_some (h : (moves ds).isEmpty = false) {pattern : Pattern}
    (hsome : settings.relocatable = some pattern) (lines : List Text) :
    relocate settings lines (fixable ds) =
      ⟨(lineOrder settings lines ds).filterMap (fun i => lines[i]?),
        (localFixes ds).map (Relocation.remap ((lineOrder settings lines ds).map Int.ofNat)),
        moves ds, []⟩ := by
  have horder : lineOrder settings lines ds = Relocation.order pattern settings.style lines := by
    simp [lineOrder, hsome, h]
  rw [horder]
  refine (if_neg (Bool.not_eq_true _ ▸ h)).trans ?_
  rw [hsome]
  rfl

end Relocate

theorem lineOrder_perm (settings : FixSettings) (lines : List Text) (ds : List Diagnostic) :
    (lineOrder settings lines ds).Perm (List.range lines.length) := by
  unfold lineOrder
  split
  · split_ifs
    · exact List.Perm.refl _
    · exact Relocation.order_perm ..
  · exact List.Perm.refl _

theorem filterMap_getElem?_of_perm {lines : List Text} {order : List Nat}
    (hperm : order.Perm (List.range lines.length)) :
    order.filterMap (fun i => lines[i]?) = order.map fun i => lines.getD i [] := by
  rw [← List.filterMap_eq_map]
  refine List.filterMap_congr fun i hi => ?_
  have hlt : i < lines.length := List.mem_range.mp (hperm.mem_iff.mp hi)
  simp [hlt]

theorem filterMap_range_getElem? (lines : List Text) :
    (List.range lines.length).filterMap (fun i => lines[i]?) = lines := by
  rw [filterMap_getElem?_of_perm (List.Perm.refl _)]
  apply List.ext_getElem
  · simp
  · intro i hi hi'
    simp [hi']

/-- The outcomes of reordered lines are those of the lines in their new order, if each place has
the fixes of the line that comes to it. -/
theorem flatten_outcomes {unit : Int} {lines : List Text} {order : List Nat}
    (hperm : order.Perm (List.range lines.length)) {ds pending : List Diagnostic}
    (hgroups : ∀ position index : Nat, order[position]? = some index → ∀ line,
      outcome unit line (ofLine pending position) =
        outcome unit line (ofLine (localFixes ds) index)) :
    ((order.filterMap fun i => lines[i]?).mapIdx fun i line =>
        outcome unit line (ofLine pending i)).flatten =
      order.flatMap (outcomeAt unit lines ds) := by
  rw [filterMap_getElem?_of_perm hperm, List.flatMap_def]
  congr 1
  apply List.ext_getElem
  · simp
  · intro position hposition hposition'
    have hlt : position < order.length := by simpa using hposition
    have hmem : order[position] < lines.length :=
      List.mem_range.mp (hperm.mem_iff.mp (List.getElem_mem hlt))
    have hline : lines[order[position]]? = some (lines.getD order[position] []) := by
      simp [hmem]
    rw [List.getElem_mapIdx, List.getElem_map, List.getElem_map,
      hgroups position order[position] (List.getElem?_eq_getElem hlt), outcomeAt, hline]

theorem applyFixes_nil (settings : FixSettings) (text : Text) :
    applyFixes settings text [] = ⟨(SourceLines.ofText text).render, [], []⟩ := by
  simp [applyFixes, relocate, fixable, groupByLine, planAll, bottomUp, SourceLines.render]

theorem flatten_outcomes_in_place (unit : Int) (lines : List Text) (ds : List Diagnostic) :
    (lines.mapIdx fun i line => outcome unit line (ofLine (localFixes ds) i)).flatten =
      (List.range lines.length).flatMap (outcomeAt unit lines ds) := by
  rw [← flatten_outcomes (List.Perm.refl _), filterMap_range_getElem?]
  intro position index h line
  obtain ⟨hlt, hget⟩ := List.getElem?_eq_some_iff.mp h
  rw [← hget, List.getElem_range]

theorem applyFixes_text (settings : FixSettings) (text : Text) (ds : List Diagnostic) :
    (applyFixes settings text ds).text =
      let lines := (SourceLines.ofText text).lines
      let start := relocate settings lines (fixable ds)
      (SourceLines.ofText text).renderWith
        (start.lines.mapIdx fun i line =>
          outcome settings.indentUnit line (ofLine start.pending i)).flatten := by
  unfold applyFixes
  simp only
  rw [lines_of_batch rfl]

/-- Fixes act line by line and at once: the fixed text holds, in the order of relocation, what each
line becomes by its own fixes. The order lists every line once. -/
theorem applyFixes_line_by_line (settings : FixSettings) (text : Text) (ds : List Diagnostic) :
    let source := SourceLines.ofText text
    let order := lineOrder settings source.lines ds
    order.Perm (List.range source.lines.length) ∧
      (applyFixes settings text ds).text =
        source.renderWith (order.flatMap (outcomeAt settings.indentUnit source.lines ds)) := by
  intro source order
  have hperm : order.Perm (List.range source.lines.length) := lineOrder_perm ..
  refine ⟨hperm, ?_⟩
  rw [applyFixes_text]
  simp only
  cases hmoves : (moves ds).isEmpty with
  | true =>
      have horder : order = List.range source.lines.length := by
        simp only [order, lineOrder, hmoves, if_true]
        split <;> rfl
      rw [relocate_of_no_moves hmoves, horder]
      simp only
      rw [flatten_outcomes_in_place]
  | false =>
      cases hsettings : settings.relocatable with
      | none =>
          have horder : order = List.range source.lines.length := by
            simp only [order, lineOrder, hsettings]
          rw [relocate_of_none hmoves hsettings, horder]
          simp only
          rw [flatten_outcomes_in_place]
      | some pattern =>
          rw [relocate_of_some hmoves hsettings]
          simp only
          rw [flatten_outcomes hperm]
          intro position index h line
          rw [Relocation.ofLine_map_remap hperm h, (Relocation.keepsFixes_remap _).outcome_map]

end Fixing

end LineLint
