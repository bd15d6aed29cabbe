import LineLint.ImportLayout
import LineLint.Proofs.SimultaneousFixes

/-!
# No fix is lost and none counted twice

What a batch of fixes carries out and what it skips are together the fixable diagnostics of the
batch, each as often as it was given. A batch reports its fixes as they were given, except that a
fix of a line that has moved names the new place of its line. The place and the line determine each
other by the order of the lines.
-/

namespace LineLint

namespace Fixing

/-- Whether a batch moves lines: it asks for that, and the settings say which lines may move. -/
def carriesOutMoves (settings : FixSettings) (ds : List Diagnostic) : Bool :=
  settings.relocatable.isSome && !(moves ds).isEmpty

/-- A fix as a batch reports it: a local one for a line of the text names the place of that line
after the moves, if there were any. -/
def reported (settings : FixSettings) (lines : List Text) (ds : List Diagnostic) (d : Diagnostic) :
    Diagnostic :=
  if carriesOutMoves settings ds ∧ Spec.relocates d.code = false ∧ 1 ≤ d.line ∧
      d.line ≤ lines.length then
    { d with line := (lineOrder settings lines ds).idxOf (d.line - 1).toNat + 1 }
  else d

theorem moves_append_localFixes_perm (ds : List Diagnostic) :
    (moves ds ++ localFixes ds).Perm (fixable ds) :=
  List.filter_append_perm _ _

theorem map_reported_of_stay {settings : FixSettings} {ds : List Diagnostic}
    (h : carriesOutMoves settings ds = false) (lines : List Text) (es : List Diagnostic) :
    es.map (reported settings lines ds) = es := by
  have hid : reported settings lines ds = id := by
    funext d
    simp [reported, h]
  rw [hid, List.map_id]

theorem map_reported_moves (settings : FixSettings) (lines : List Text) (ds : List Diagnostic) :
    (moves ds).map (reported settings lines ds) = moves ds := by
  conv_rhs => rw [← List.map_id (moves ds)]
  refine List.map_congr_left fun d hd => ?_
  have hmoves : Spec.relocates d.code = true := (List.mem_filter.mp hd).2
  simp [reported, hmoves]

theorem reported_eq_remap {settings : FixSettings} {lines : List Text} {ds : List Diagnostic}
    (h : carriesOutMoves settings ds = true) {d : Diagnostic}
    (hlocal : Spec.relocates d.code = false) :
    reported settings lines ds d =
      Relocation.remap ((lineOrder settings lines ds).map Int.ofNat) d := by
  have hperm := lineOrder_perm settings lines ds
  have hnodup : (lineOrder settings lines ds).Nodup :=
    hperm.nodup_iff.mpr List.nodup_range
  by_cases hrange : 1 ≤ d.line ∧ d.line ≤ lines.length
  · have hmem : (d.line - 1).toNat ∈ lineOrder settings lines ds := by
      rw [hperm.mem_iff, List.mem_range]
      omega
    have hget := List.getElem?_idxOf hmem
    rw [Relocation.remap_of_getElem? hnodup hget (by omega), reported, if_pos]
    exact ⟨h, hlocal, hrange⟩
  · rw [Relocation.remap_of_not_mem, reported, if_neg]
    · rintro ⟨-, -, hin⟩
      exact hrange hin
    · intro i hi he
      have hlt : i < lines.length := List.mem_range.mp (hperm.mem_iff.mp hi)
      exact hrange ⟨by omega, by omega⟩

theorem map_reported_localFixes {settings : FixSettings} {ds : List Diagnostic}
    (h : carriesOutMoves settings ds = true) (lines : List Text) :
    (localFixes ds).map (reported settings lines ds) =
      (localFixes ds).map
        (Relocation.remap ((lineOrder settings lines ds).map Int.ofNat)) := by
  refine List.map_congr_left fun d hd => reported_eq_remap h ?_
  simpa using (List.mem_filter.mp hd).2

/-- Relocation settles the moves one way or the other and passes the local fixes on. -/
theorem relocate_perm (settings : FixSettings) (lines : List Text) (ds : List Diagnostic) :
    ((relocate settings lines (fixable ds)).applied ++
      (relocate settings lines (fixable ds)).skipped.map (·.diagnostic) ++
      (relocate settings lines (fixable ds)).pending).Perm
      ((fixable ds).map (reported settings lines ds)) := by
  refine List.Perm.trans ?_ ((moves_append_localFixes_perm ds).map _)
  rw [List.map_append, map_reported_moves]
  cases hmoves : (moves ds).isEmpty with
  | true =>
      have hstay : carriesOutMoves settings ds = false := by simp [carriesOutMoves, hmoves]
      rw [relocate_of_no_moves hmoves, map_reported_of_stay hstay, List.isEmpty_iff.mp hmoves]
      exact List.Perm.refl _
  | false =>
      cases hsettings : settings.relocatable with
      | none =>
          have hstay : carriesOutMoves settings ds = false := by simp [carriesOutMoves, hsettings]
          rw [relocate_of_none hmoves hsettings, map_reported_of_stay hstay]
          simp only [map_diagnostic_skipAll, List.nil_append]
          exact List.Perm.refl _
      | some pattern =>
          have hcarried : carriesOutMoves settings ds = true := by
            simp [carriesOutMoves, hsettings, hmoves]
          rw [relocate_of_some hmoves hsettings, map_reported_localFixes hcarried]
          simp only [List.map_nil, List.append_nil]
          exact List.Perm.refl _

/-- The plans of a batch and what planning skips stand for the diagnostics that are pending. -/
theorem planned_perm (unit : Int) (lines : List Text) (pending : List Diagnostic) :
    ((planAll unit lines (groupByLine pending)).skipped.map (·.diagnostic) ++
      (bottomUp (planAll unit lines (groupByLine pending)).plans).flatMap (·.sources)).Perm
      pending := by
  have hplanned := @perm_planAll unit lines (groupByLine pending) fun _ => group_ne_nil
  generalize planAll unit lines (groupByLine pending) = planned at hplanned ⊢
  have hsources := (bottomUp_perm planned.plans).flatMap_right (·.sources)
  refine List.perm_append_comm.trans ((hsources.append_right _).trans ?_)
  exact hplanned.trans (flatMap_groupByLine_perm pending)

/-- What a batch carries out and what it skips are its fixable diagnostics, each as often as it was
given. -/
theorem applied_append_skipped_perm (settings : FixSettings) (text : Text)
    (ds : List Diagnostic) :
    ((applyFixes settings text ds).applied ++
      (applyFixes settings text ds).skipped.map (·.diagnostic)).Perm
      ((fixable ds).map (reported settings (SourceLines.ofText text).lines ds)) := by
  unfold applyFixes
  simp only
  generalize (SourceLines.ofText text).lines = lines
  refine List.Perm.trans ?_ (relocate_perm settings lines ds)
  generalize relocate settings lines (fixable ds) = start
  refine (perm_foldl_applyPlan _ _ _).trans ?_
  simp only [List.map_append, List.append_assoc]
  exact ((planned_perm settings.indentUnit start.lines start.pending).append_left _).append_left _

variable {settings : FixSettings} {lines : List Text} {ds : List Diagnostic} {d : Diagnostic}

theorem reported_of_not_moved (h : ¬(carriesOutMoves settings ds = true ∧
    Spec.relocates d.code = false ∧ 1 ≤ d.line ∧ d.line ≤ lines.length)) :
    reported settings lines ds d = d :=
  if_neg h

theorem exists_reported_eq (hmoves : carriesOutMoves settings ds = true)
    (hlocal : Spec.relocates d.code = false) (hrange : 1 ≤ d.line ∧ d.line ≤ lines.length) :
    ∃ position index : Nat, (lineOrder settings lines ds)[position]? = some index ∧
      d.line = index + 1 ∧ reported settings lines ds d = { d with line := position + 1 } := by
  have hmem : (d.line - 1).toNat ∈ lineOrder settings lines ds := by
    rw [(lineOrder_perm settings lines ds).mem_iff, List.mem_range]
    omega
  refine ⟨(lineOrder settings lines ds).idxOf (d.line - 1).toNat, (d.line - 1).toNat,
    List.getElem?_idxOf hmem, by omega, ?_⟩
  exact if_pos ⟨hmoves, hlocal, hrange⟩

/-- A fix is reported under another number exactly if lines are moved and its own line comes to
another place, which is then the number that it has. -/
theorem reported_ne_iff :
    reported settings lines ds d ≠ d ↔
      carriesOutMoves settings ds = true ∧ Spec.relocates d.code = false ∧
        ∃ position index : Nat, (lineOrder settings lines ds)[position]? = some index ∧
          position ≠ index ∧ d.line = index + 1 ∧
          reported settings lines ds d = { d with line := position + 1 } := by
  constructor
  · intro hne
    by_cases hmoved : carriesOutMoves settings ds = true ∧ Spec.relocates d.code = false ∧
        1 ≤ d.line ∧ d.line ≤ lines.length
    · obtain ⟨hmoves, hlocal, hrange⟩ := hmoved
      obtain ⟨position, index, hplace, hline, heq⟩ := exists_reported_eq hmoves hlocal hrange
      refine ⟨hmoves, hlocal, position, index, hplace, ?_, hline, heq⟩
      rintro rfl
      rw [heq, ← hline] at hne
      exact hne rfl
    · exact absurd (reported_of_not_moved hmoved) hne
  · rintro ⟨-, -, position, index, -, hne, hline, heq⟩ hsame
    have hnumber : d.line = position + 1 := congrArg Diagnostic.line (hsame.symm.trans heq)
    omega

/-- What a batch carries out or skips is what relocation has settled and what it passes on. -/
theorem batch_perm (unit : Int) (start : Relocated) :
    let planned := planAll unit start.lines (groupByLine start.pending)
    let finish := (bottomUp planned.plans).foldl (applyPlan unit)
      ⟨start.lines, start.applied, start.skipped ++ planned.skipped⟩
    (finish.applied ++ finish.skipped.map (·.diagnostic)).Perm
      (start.applied ++ start.skipped.map (·.diagnostic) ++ start.pending) := by
  intro planned finish
  have hplanned := planned_perm unit start.lines start.pending
  refine (perm_foldl_applyPlan unit _ _).trans ?_
  simp only [List.map_append, List.append_assoc]
  exact (hplanned.append_left _).append_left _

/-- A batch reports all its fixes and nothing else. A fix is reported as it was given unless lines
are moved and it is a local fix of a line that comes to another place. It then has the number of
that place, and the order of the lines tells which line came there. -/
theorem mem_reports_iff (settings : FixSettings) (text : Text) (ds : List Diagnostic) :
    let lines := (SourceLines.ofText text).lines
    let result := applyFixes settings text ds
    (∀ e, e ∈ result.applied ++ result.skipped.map (·.diagnostic) ↔
      ∃ d ∈ fixable ds, reported settings lines ds d = e) ∧
    ∀ d, reported settings lines ds d ≠ d ↔
      carriesOutMoves settings ds = true ∧ Spec.relocates d.code = false ∧
        ∃ position index : Nat, (lineOrder settings lines ds)[position]? = some index ∧
          position ≠ index ∧ d.line = index + 1 ∧
          reported settings lines ds d = { d with line := position + 1 } := by
  intro lines result
  refine ⟨fun e => ?_, fun d => reported_ne_iff⟩
  have hbatch : (result.applied ++ result.skipped.map (·.diagnostic)).Perm _ :=
    batch_perm settings.indentUnit (relocate settings lines (fixable ds))
  rw [(hbatch.trans (relocate_perm settings lines ds)).mem_iff, List.mem_map]

def besideMove : List Diagnostic :=
  [{ code := "SPACING", message := [], line := 1, category := "Formatting", suggestion := [],
     replacement := some "x = 1".toList },
   { code := "LINT_PYTHON_IMPORT_PLACEMENT", message := [], line := 2, category := "PEP8",
     suggestion := [], replacement := some "import os".toList }]

/-- The fix of the first line is reported for the second, to which its line has moved. -/
example :
    (besideMove.map fun d => (reported { relocatable := some ImportLayout.importLine }
      ["x=1".toList, "import os".toList] besideMove d).line) = [2, 2] := by
  have horder : Relocation.order ImportLayout.importLine {}
      ["x=1".toList, "import os".toList] = [1, 0] := by cbv
  have hmoves : (moves besideMove).isEmpty = false := by decide
  have hcodes : Spec.relocates "SPACING" = false ∧
      Spec.relocates "LINT_PYTHON_IMPORT_PLACEMENT" = true := by decide
  simp only [reported, carriesOutMoves, lineOrder, hmoves, horder]
  simp [besideMove, hcodes]

end Fixing

end LineLint
