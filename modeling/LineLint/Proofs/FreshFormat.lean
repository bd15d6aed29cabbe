import LineLint.Proofs.RuleReports
import LineLint.Proofs.UnhinderedBatch
import LineLint.Run

/-!
# Formatting after a fresh lint

The findings of a built-in analyzer name lines of the text that it has read, so a format run over
them meets no failure. A fix is skipped only in favour of another one on its line.
-/

namespace LineLint

namespace Registry

variable {a : Analyzer} (ha : a ∈ builtin.analyzers) (options : LintOptions) (text : Text)
include ha

theorem mem_analyze_builtin {d : Diagnostic} (hd : d ∈ a.analyze options text) :
    (∃ r ∈ a.rules, d.code = r.code) ∧
      ∃ i : Nat, d.line = i + 1 ∧ (SourceLines.ofText text).lines[i]? = some d.snippet := by
  obtain ⟨r, hr, hrun⟩ := Rule.mem_runAll.mp hd
  have hrule : r ∈ a.rules := List.mem_of_mem_filter hr
  obtain ⟨hcode, hquoted⟩ := quotesLines_of_mem_builtin ha r hrule _ d hrun
  exact ⟨⟨r, hrule, hcode⟩, hquoted⟩

theorem line_range_of_mem_analyze {d : Diagnostic} (hd : d ∈ a.analyze options text) :
    1 ≤ d.line ∧ d.line ≤ (SourceLines.ofText text).lines.length := by
  obtain ⟨-, i, hline, hget⟩ := mem_analyze_builtin ha options text hd
  obtain ⟨hlt, -⟩ := List.getElem?_eq_some_iff.mp hget
  omega

theorem moves_analyze_eq_nil
    (h : (a.rules.all fun r => !Spec.relocates r.code) = true) :
    Fixing.moves (a.analyze options text) = [] := by
  refine List.filter_eq_nil_iff.mpr fun d hd => ?_
  obtain ⟨⟨r, hr, hcode⟩, -⟩ := mem_analyze_builtin ha options text (List.mem_of_mem_filter hd)
  simpa [hcode] using List.all_eq_true.mp h r hr

theorem isUnhindered_analyze :
    Fixing.IsUnhindered a.profile.fixSettings text (a.analyze options text) := by
  refine Fixing.isUnhindered_of_line_range ?_ ?_ ?_
  · change Indentation.IsUsable a.profile.indentUnit
    rw [indentUnit_of_mem_builtin ha]
    exact Indentation.isUsable_four
  · intro hmoves
    rcases relocatable_of_mem_builtin ha with hnone | hsome
    · exact absurd (moves_analyze_eq_nil ha options text hnone) hmoves
    · exact hsome
  · intro d hd
    exact line_range_of_mem_analyze ha options text
      (List.mem_of_mem_filter (List.mem_of_mem_filter hd))

end Registry

namespace Run

/-- A format run of a built-in analyzer over its own findings meets no failure: moves are allowed,
each line is planned, each plan is carried out, and what is skipped stands back behind another fix
on the same line. -/
theorem formatWith_fresh_meets_no_failure {a : Analyzer} (ha : a ∈ Registry.builtin.analyzers)
    (options : LintOptions) (text : Text) :
    Fixing.IsUnhindered a.profile.fixSettings text (a.analyze options text) ∧
      ∀ s ∈ (formatWith a options text none).skipped,
        s.reason = "overlaps an earlier fix on the same line".toList ∨
          s.reason = "superseded by a deletion on the same line".toList := by
  have hrun := Registry.isUnhindered_analyze ha options text
  exact ⟨hrun, fun s hs => hrun.reason_of_mem_skipped hs⟩

theorem formatWith_javaScript_meets_no_failure :
    (⟨JavaScript.profile, JavaScript.rules⟩ : Analyzer) ∈ Registry.builtin.analyzers ∧
      ∀ s ∈ (formatWith ⟨JavaScript.profile, JavaScript.rules⟩ {} "a= b  =b  \n\x7b\n".toList
          none).skipped,
        s.reason = "overlaps an earlier fix on the same line".toList ∨
          s.reason = "superseded by a deletion on the same line".toList := by
  have hmem : (⟨JavaScript.profile, JavaScript.rules⟩ : Analyzer) ∈ Registry.builtin.analyzers := by
    simp [Registry.builtin]
  exact ⟨hmem, (formatWith_fresh_meets_no_failure hmem {} _).2⟩

end Run

end LineLint
