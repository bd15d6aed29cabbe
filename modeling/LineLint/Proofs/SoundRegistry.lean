import LineLint.Proofs.RuleReports
import LineLint.Proofs.SoundIdioms
import LineLint.Proofs.SoundLayout
import LineLint.Proofs.SoundMarkup
import LineLint.Proofs.SoundStatements
import Mathlib.Data.List.Permutation

/-!
# The rules of the registry

All rules of all built-in analyzers are sound: each comes to a result for every text, quotes the
line that it names, and deletes none but blank lines and lone opening braces.
-/

namespace LineLint

open Indentation (isUsable_four)

theorem TagSpelling.knownTags_ne_nil : ∀ t ∈ knownTags, t ≠ [] := by
  decide +kernel

theorem CSharp.isSound_rules : ∀ r ∈ rules, r.IsSound := by
  simp only [rules, List.forall_mem_cons]
  exact ⟨OperatorSpacing.isSound (OperatorTable.byLength_ne_nil (by decide)),
    Terminator.isSound (by decide), ExtraTerminator.isSound _,
    ControlStructure.isSound isUsable_four, IndentationStep.isSound isUsable_four,
    EmptyLine.isSound, NamingConvention.isSound _, VarUsage.isSound _, BraceOwnLine.isSound _,
    NullComparison.nullRule_isSound _, KeywordCollision.isSound _, RedundantEquals.isSound _,
    TryHandler.isSound _, SwitchDefault.isSound _, DuplicateLines.isSound _,
    ResourceLifecycle.isSound (by decide), List.forall_mem_nil _⟩

theorem Html.isSound_rules : ∀ r ∈ rules, r.IsSound := by
  simp only [rules, List.forall_mem_cons]
  exact ⟨EmptyLine.isSound, DocumentStructure.isSound, TagNesting.isSound, TagCase.isSound,
    AttributeQuotes.isSound, IndentationStep.isSound isUsable_four, EmptyElement.isSound,
    ImageDimensions.isSound, TagSpelling.isSound TagSpelling.knownTags_ne_nil,
    TableStructure.isSound, RequiredAttribute.isSound, List.forall_mem_nil _⟩

theorem Python.isSound_rules : ∀ r ∈ rules, r.IsSound := by
  simp only [rules, List.forall_mem_cons]
  exact ⟨OperatorSpacing.isSound (OperatorTable.byLength_ne_nil (by decide)),
    CommaSpacing.isSound _, NullComparison.noneRule_isSound _,
    IndentationStep.isSound isUsable_four, EmptyLine.isSound, KeywordCollision.isSound _,
    MissingColon.isSound _, IndentedBlock.isSound _ _, MissingCondition.isSound _,
    DuplicateLines.isSound _, EmptyIf.isSound _ _, TryHandler.isSound _,
    ImportLayout.placementRule_isSound _, ImportLayout.singleRule_isSound _,
    NamingConvention.isSound _, ResourceLifecycle.isSound (by decide), List.forall_mem_nil _⟩

theorem Java.isSound_rules : ∀ r ∈ rules, r.IsSound := by
  simp only [rules, List.forall_mem_cons]
  exact ⟨Terminator.isSound (by decide), ExtraTerminator.isSound _,
    OperatorSpacing.isSound (OperatorTable.byLength_ne_nil (by decide)),
    IndentationStep.isSound isUsable_four, EmptyLine.isSound, BraceOwnLine.isSound _,
    KeywordCollision.isSound _, ControlStructure.isSound isUsable_four,
    TryHandler.isSound _, SwitchDefault.isSound _, NamingConvention.isSound _,
    DuplicateLines.isSound _, ResourceLifecycle.isSound (by decide), List.forall_mem_nil _⟩

theorem Cpp.isSound_rules : ∀ r ∈ rules, r.IsSound := by
  simp only [rules, List.forall_mem_cons]
  exact ⟨Terminator.isSound (by decide), ExtraTerminator.isSound _, CommaSpacing.isSound _,
    OperatorSpacing.isSound (OperatorTable.byLength_ne_nil (by decide)),
    IndentationScope.isSound isUsable_four, EmptyLine.isSound, BraceOwnLine.isSound _,
    KeywordCollision.isSound _, ControlStructure.isSound isUsable_four,
    TryHandler.isSound _, SwitchDefault.isSound _, DuplicateLines.isSound _,
    ResourceLifecycle.isSound (by decide), List.forall_mem_nil _⟩

theorem JavaScript.isSound_rules : ∀ r ∈ rules, r.IsSound := by
  simp only [rules, List.forall_mem_cons]
  exact ⟨VarDeclaration.isSound _, EmptyLine.isSound, Terminator.isSound (by decide),
    StrictEquality.isSound _, OperatorSpacing.isSound (OperatorTable.byLength_ne_nil (by decide)),
    IndentationStep.isSound isUsable_four, BraceSameLine.isSound _,
    KeywordCollision.isSound _, ControlStructure.isSound isUsable_four,
    TryHandler.isSound _, SwitchDefault.isSound _, DuplicateLines.isSound _,
    NamingConvention.isSound _, StrictMode.isSound _, List.forall_mem_nil _⟩

namespace Registry

theorem isSound_of_mem_builtin {a : Analyzer} (ha : a ∈ builtin.analyzers) :
    ∀ r ∈ a.rules, r.IsSound := by
  simp only [builtin, List.mem_cons, List.not_mem_nil, or_false] at ha
  rcases ha with rfl | rfl | rfl | rfl | rfl | rfl
  · exact CSharp.isSound_rules
  · exact Html.isSound_rules
  · exact Python.isSound_rules
  · exact Java.isSound_rules
  · exact Cpp.isSound_rules
  · exact JavaScript.isSound_rules

/-- Every built-in rule comes to a result for every text. Each of its diagnostics names a line of
the text and quotes it, and one that deletes its line names a blank line or a lone opening brace.
-/
theorem run_of_mem_builtin {a : Analyzer} (ha : a ∈ builtin.analyzers) {r : Rule}
    (hr : r ∈ a.rules) (text : Text) :
    ∃ ds, r.run (SourceLines.ofText text).lines = .ok ds ∧ ∀ d ∈ ds,
      1 ≤ d.line ∧ d.line ≤ (SourceLines.ofText text).lines.length ∧
        (SourceLines.ofText text).lines[(d.line - 1).toNat]? = some d.snippet ∧
        (d.replacement = some [] → d.snippet.allBlank = true ∨ d.snippet.trim = ['{']) := by
  have hsound := isSound_of_mem_builtin ha r hr
  obtain ⟨ds, hrun⟩ := hsound.runs (SourceLines.ofText text).lines
  refine ⟨ds, hrun, fun d hd => ?_⟩
  rw [← Rule.runGuarded_of_ok hrun] at hd
  obtain ⟨-, i, hi, hquoted⟩ := quotesLines_of_mem_builtin ha r hr _ d hd
  have hlt : i < (SourceLines.ofText text).lines.length :=
    (List.getElem?_eq_some_iff.mp hquoted).1
  refine ⟨by omega, by omega, ?_, fun hdelete => ?_⟩
  · rw [hi, Int.add_sub_cancel, Int.toNat_natCast]
    exact hquoted
  · exact hsound.deletesSpare _ d hd (by simp [Diagnostic.isDeletion, hdelete])

def loneBrace : Text := "if (a)\n\x7b\n".toList

theorem run_of_mem_builtin_loneBrace :
    ⟨JavaScript.profile, JavaScript.rules⟩ ∈ builtin.analyzers ∧
      BraceSameLine.rule JavaScript.profile.style ∈ JavaScript.rules ∧
      ∃ ds, (BraceSameLine.rule JavaScript.profile.style).run
          (SourceLines.ofText loneBrace).lines = .ok ds ∧
        (ds.any fun d => d.replacement == some []) = true ∧ ∀ d ∈ ds,
          1 ≤ d.line ∧ d.line ≤ (SourceLines.ofText loneBrace).lines.length ∧
            (SourceLines.ofText loneBrace).lines[(d.line - 1).toNat]? = some d.snippet ∧
            (d.replacement = some [] → d.snippet.allBlank = true ∨ d.snippet.trim = ['{']) := by
  have hmem : ⟨JavaScript.profile, JavaScript.rules⟩ ∈ builtin.analyzers := by simp [builtin]
  have hrule : BraceSameLine.rule JavaScript.profile.style ∈ JavaScript.rules := by
    simp [JavaScript.rules]
  obtain ⟨ds, hrun, hall⟩ := run_of_mem_builtin hmem hrule loneBrace
  have hdeletes : ((BraceSameLine.rule JavaScript.profile.style).run
      (SourceLines.ofText loneBrace).lines).map (·.any fun d => d.replacement == some []) =
        .ok true := by cbv
  rw [hrun] at hdeletes
  exact ⟨hmem, hrule, ds, hrun, Except.ok.inj hdeletes, hall⟩

end Registry

end LineLint
