import LineLint.Proofs.SpacingReports

/-!
# Ignored codes

A rule reports its own code and no other, whatever else is run with it. Rules that are left out by
their codes therefore take along the diagnostics with these codes, and nothing else.
-/

namespace LineLint

namespace Rule

/-- Rules chosen by their codes report what all rules report, chosen by the same codes. -/
theorem runAll_filter {rules : List Rule} (hquotes : ∀ r ∈ rules, r.QuotesLines)
    (keeps : String → Bool) (lines : List Text) :
    runAll (rules.filter fun r => keeps r.code) lines =
      (runAll rules lines).filter fun d => keeps d.code := by
  induction rules with
  | nil => rfl
  | cons r rules ih =>
      obtain ⟨hr, hrules⟩ := List.forall_mem_cons.mp hquotes
      have hown : ∀ d ∈ runGuarded lines r, keeps d.code = keeps r.code := fun d hd =>
        congrArg keeps (hr lines d hd).1
      have hcons : runAll (r :: rules) lines = runGuarded lines r ++ runAll rules lines :=
        List.flatMap_cons
      rw [hcons, List.filter_append, ← ih hrules, List.filter_cons]
      cases hkeeps : keeps r.code with
      | true =>
          have hall : (runGuarded lines r).filter (fun d => keeps d.code) = runGuarded lines r :=
            List.filter_eq_self.mpr fun d hd => (hown d hd).trans hkeeps
          rw [hall, if_pos rfl]
          exact List.flatMap_cons
      | false =>
          have hnone : (runGuarded lines r).filter (fun d => keeps d.code) = [] := by
            refine List.filter_eq_nil_iff.mpr fun d hd => ?_
            rw [hown d hd, hkeeps]
            exact Bool.false_ne_true
          rw [hnone, List.nil_append, if_neg Bool.false_ne_true]

end Rule

namespace Registry

/-- Under any options a built-in analyzer finds what it finds under the default ones, in the same
order, without the diagnostics whose codes are ignored. -/
theorem diagnostics_lint_eq_filter {a : Analyzer} (ha : a ∈ builtin.analyzers)
    (options : LintOptions) (text : Text) :
    (a.lint options text).diagnostics =
      (a.lint {} text).diagnostics.filter fun d => !options.ignore.contains d.code.toList := by
  have hall : Analyzer.activeRules {} a.rules = a.rules :=
    List.filter_eq_self.mpr fun r _ => rfl
  simp only [Analyzer.lint, hall]
  exact Rule.runAll_filter (quotesLines_of_mem_builtin ha)
    (fun code => !options.ignore.contains code.toList) _

abbrev python : Analyzer := ⟨Python.profile, Python.rules⟩

def indentedName : Text := " a\n\n".toList

theorem analyze_indentedName :
    python.analyze {} indentedName = Rule.runAll Python.rules.tail [" a".toList, []] := by
  have hlines : (SourceLines.ofText indentedName).lines = [" a".toList, []] := by decide
  have hactive : Analyzer.activeRules {} python.rules = Python.rules := rfl
  change Rule.runAll _ _ = _
  rw [hlines, hactive]
  refine Python.runAll_rules ?_
  have hsorted : Python.spacing.table.byLength = _ := Python.byLength_operators
  simp only [OperatorSpacing.normalize, hsorted]
  decide +kernel

theorem codes_indentedName :
    (python.lint {} indentedName).diagnostics.map (·.code) =
      ["LINT_FORMAT_INDENTATION", "LINT_FORMAT_EMPTY_LINE"] := by
  change (python.analyze {} indentedName).map (·.code) = _
  rw [analyze_indentedName]
  decide +kernel

theorem diagnostics_lint_eq_filter_indentedName :
    python ∈ builtin.analyzers ∧
      (python.lint { ignore := ["LINT_FORMAT_EMPTY_LINE".toList] } indentedName).diagnostics.map
        (·.code) = ["LINT_FORMAT_INDENTATION"] := by
  have hmem : python ∈ builtin.analyzers := by simp [builtin]
  refine ⟨hmem, ?_⟩
  have hignored := diagnostics_lint_eq_filter hmem
    { ignore := ["LINT_FORMAT_EMPTY_LINE".toList] } indentedName
  have hcodes : ((python.lint {} indentedName).diagnostics.map (·.code)).filter
      (fun code => !List.contains ["LINT_FORMAT_EMPTY_LINE".toList] code.toList) =
        ["LINT_FORMAT_INDENTATION"] := by
    rw [codes_indentedName]
    decide
  rw [List.filter_map] at hcodes
  rw [hignored]
  exact hcodes

end Registry

end LineLint
