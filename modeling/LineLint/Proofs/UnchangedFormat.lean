import LineLint.Proofs.SimultaneousFixes
import LineLint.Proofs.LineRoundTrip
import LineLint.Proofs.SpacingReports
import LineLint.Run

/-!
# Format runs that apply nothing

Each plan carries out at least one diagnostic, so a batch that applies none leaves the lines as they
are. The text is still written again from its lines, which keeps it exactly if its newlines are
uniform.
-/

namespace LineLint

namespace Fixing

variable {unit : Int}

theorem composable_ne_nil (line : Text) {group : List Diagnostic} (h : group ≠ []) :
    composable line group ≠ [] := by
  obtain ⟨d, rest, rfl⟩ := List.exists_cons_of_ne_nil h
  have hfirst : d ∈ composable line (d :: rest) := by
    rw [mem_composable_iff List.mem_cons_self, List.takeWhile_cons_of_neg (by simp)]
    simp [Composition.clashes, Composition.ofRevisions, Composition.acceptFrom]
  exact List.ne_nil_of_mem hfirst

theorem carriedOut_ne_nil (line : Text) {group : List Diagnostic} (h : group ≠ []) :
    carriedOut line group ≠ [] := by
  unfold carriedOut
  split_ifs with hdelete
  · obtain ⟨d, hd, hdeletion⟩ := List.any_eq_true.mp hdelete
    exact List.ne_nil_of_mem (List.mem_filter.mpr ⟨hd, hdeletion⟩)
  · exact composable_ne_nil line h

theorem sources_ne_nil {lines : List Text} {ds : List Diagnostic} {plan : LinePlan}
    (h : plan ∈ (planAll unit lines (groupByLine ds)).plans) : plan.sources ≠ [] := by
  obtain ⟨g, hg, hplan⟩ := mem_plans_planAll.mp h
  obtain ⟨line, hline⟩ := lineAt?_of_planLine hplan
  have hne : g.2 ≠ [] := group_ne_nil hg
  rw [(isPlanFor_of_planLine hline hne hplan).sources_eq]
  exact carriedOut_ne_nil line hne

theorem applied_prefix_foldl_applyPlan (plans : List LinePlan) (p : Progress) :
    p.applied <+: (plans.foldl (applyPlan unit) p).applied := by
  induction plans generalizing p with
  | nil => exact List.prefix_refl _
  | cons plan plans ih =>
      have hstep : p.applied <+: (applyPlan unit p plan).applied := by
        unfold applyPlan
        split
        · exact List.prefix_append _ _
        · exact List.prefix_refl _
      exact hstep.trans (ih _)

theorem applied_eq_nil_of_foldl {plans : List LinePlan} {p : Progress}
    (h : (plans.foldl (applyPlan unit) p).applied = []) : p.applied = [] := by
  have hgrown : p.applied <+: (plans.foldl (applyPlan unit) p).applied :=
    applied_prefix_foldl_applyPlan plans p
  rw [h] at hgrown
  exact List.prefix_nil.mp hgrown

theorem lines_foldl_of_applied_eq_nil {plans : List LinePlan} {p : Progress}
    (hsources : ∀ plan ∈ plans, plan.sources ≠ [])
    (h : (plans.foldl (applyPlan unit) p).applied = []) :
    (plans.foldl (applyPlan unit) p).lines = p.lines := by
  induction plans generalizing p with
  | nil => rfl
  | cons plan plans ih =>
      have hsource : plan.sources ≠ [] := hsources plan List.mem_cons_self
      have hrest : ∀ q ∈ plans, q.sources ≠ [] := fun q hq => hsources q (List.mem_cons_of_mem _ hq)
      rw [List.foldl_cons] at h ⊢
      have hnone : (applyPlan unit p plan).applied = [] := applied_eq_nil_of_foldl h
      have hlines : (applyPlan unit p plan).lines = p.lines := by
        unfold applyPlan at hnone ⊢
        split at hnone
        · exact absurd (List.append_eq_nil_iff.mp hnone).2 hsource
        · rfl
      rw [ih hrest h, hlines]

theorem relocate_lines_of_applied_eq_nil {settings : FixSettings} {lines : List Text}
    {ds : List Diagnostic} (h : (relocate settings lines (fixable ds)).applied = []) :
    (relocate settings lines (fixable ds)).lines = lines := by
  cases hmoves : (moves ds).isEmpty with
  | true => rw [relocate_of_no_moves hmoves]
  | false =>
      cases hsettings : settings.relocatable with
      | none => rw [relocate_of_none hmoves hsettings]
      | some pattern =>
          rw [relocate_of_some hmoves hsettings] at h
          rw [List.isEmpty_iff.mpr h] at hmoves
          cases hmoves

theorem applyFixes_text_of_applied_eq_nil {settings : FixSettings} {text : Text}
    {ds : List Diagnostic} (h : (applyFixes settings text ds).applied = []) :
    (applyFixes settings text ds).text = (SourceLines.ofText text).render := by
  unfold applyFixes at h ⊢
  simp only at h ⊢
  have hsources : ∀ plan ∈ bottomUp (planAll settings.indentUnit
      (relocate settings (SourceLines.ofText text).lines (fixable ds)).lines
      (groupByLine (relocate settings (SourceLines.ofText text).lines (fixable ds)).pending)).plans,
      plan.sources ≠ [] :=
    fun plan hplan => sources_ne_nil ((bottomUp_perm _).mem_iff.mp hplan)
  have hstart := applied_eq_nil_of_foldl h
  rw [lines_foldl_of_applied_eq_nil hsources h, relocate_lines_of_applied_eq_nil hstart]
  rfl

end Fixing

namespace Run

/-- A format run that applies nothing returns the text as it is written again from its lines: with
one kind of newline and without a carriage return at the end. It returns the text unchanged, and
says so, exactly if the newlines of the text are uniform. -/
theorem formatWith_of_applied_eq_nil {a : Analyzer} {options : LintOptions} {text : Text}
    {given : Option (List Diagnostic)} (h : (formatWith a options text given).applied = []) :
    (formatWith a options text given).text = (SourceLines.ofText text).render ∧
      ((formatWith a options text given).text = text ↔ HasUniformNewlines text) ∧
      ((formatWith a options text given).changed = false ↔ HasUniformNewlines text) := by
  have htext : (formatWith a options text given).text = (SourceLines.ofText text).render :=
    Fixing.applyFixes_text_of_applied_eq_nil h
  have hchanged : (formatWith a options text given).changed = false ↔
      (formatWith a options text given).text = text :=
    bne_eq_false_iff_eq
  rw [hchanged, htext, SourceLines.render_ofText_eq_iff]
  exact ⟨rfl, Iff.rfl, Iff.rfl⟩

abbrev python : Analyzer := ⟨Python.profile, Python.rules⟩

def pairedNewlines : Text := ['a', '\r', '\n', 'b', '\r', '\n']

def mixedNewlines : Text := ['a', '\r', '\n', 'b', '\n']

theorem applied_of_twoNames {text : Text} (h : (SourceLines.ofText text).lines = [['a'], ['b']]) :
    (formatWith python {} text none).applied = [] := by
  have hloose : ∀ line ∈ [['a'], ['b']], (Python.spacing.normalize line).operators = [] ∧
      (Python.spacing.normalize line).keywords = [] := by
    have hsorted : Python.spacing.table.byLength = _ := Python.byLength_operators
    simp only [OperatorSpacing.normalize, hsorted]
    decide +kernel
  have hanalyze : python.analyze {} text = [] := by
    have hactive : Analyzer.activeRules {} python.rules = Python.rules := rfl
    change Rule.runAll _ _ = _
    rw [h, hactive, Python.runAll_rules hloose]
    decide +kernel
  simp only [formatWith, Option.getD_none, hanalyze]
  rw [Fixing.applyFixes_nil]

theorem formatWith_of_applied_eq_nil_pairedNewlines :
    (formatWith python {} pairedNewlines none).applied = [] ∧
      (formatWith python {} pairedNewlines none).text = pairedNewlines ∧
      (formatWith python {} pairedNewlines none).changed = false := by
  have happlied : (formatWith python {} pairedNewlines none).applied = [] :=
    applied_of_twoNames (by decide)
  obtain ⟨-, htext, hchanged⟩ := formatWith_of_applied_eq_nil happlied
  have huniform : HasUniformNewlines pairedNewlines :=
    (SourceLines.render_ofText_eq_iff pairedNewlines).mp (by decide)
  exact ⟨happlied, htext.mpr huniform, hchanged.mpr huniform⟩

/-- A run that applies nothing puts a carriage return before every newline if one of them had it. -/
theorem formatWith_mixedNewlines :
    python ∈ Registry.builtin.analyzers ∧
      (formatWith python {} mixedNewlines none).applied = [] ∧
      (formatWith python {} mixedNewlines none).text = pairedNewlines ∧
      pairedNewlines ≠ mixedNewlines ∧
      (formatWith python {} mixedNewlines none).changed = true := by
  have hmem : python ∈ Registry.builtin.analyzers := by simp [Registry.builtin]
  have happlied : (formatWith python {} mixedNewlines none).applied = [] :=
    applied_of_twoNames (by decide)
  have htext : (formatWith python {} mixedNewlines none).text = pairedNewlines :=
    (Fixing.applyFixes_text_of_applied_eq_nil happlied).trans (by decide)
  have hne : pairedNewlines ≠ mixedNewlines := by decide
  exact ⟨hmem, happlied, htext, hne, bne_iff_ne.mpr (htext.trans_ne hne)⟩

end Run

end LineLint
