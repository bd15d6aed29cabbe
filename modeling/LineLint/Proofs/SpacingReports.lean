import LineLint.CSharpLanguage
import LineLint.JavaScriptLanguage
import LineLint.Proofs.SoundRules
import LineLint.PythonLanguage

/-!
# What operator spacing reports

The rule looks at one line at a time. It reports the lines in which an operator or a call is too
tight, each with the spaced line in its place.
-/

namespace LineLint

theorem Python.byLength_operators : operators.byLength = operators.binary ++ operators.verbatim :=
  List.mergeSort_of_pairwise (by decide)

theorem CSharp.byLength_operators : operators.byLength =
    ["??=", "<<=", ">>=", "==", "!=", "<=", ">=", "&&", "||", "??", "=>", "+=", "-=", "*=", "/=",
     "%=", "&=", "|=", "^=", "<<", ">>", "++", "--", "=", "+", "-", "*", "/", "%", "<",
     ">"].map String.toList := by
  simp [OperatorTable.byLength, operators, List.mergeSort, List.MergeSort.Internal.splitInTwo]

theorem JavaScript.byLength_operators : operators.byLength =
    [">>>=", "===", "!==", "**=", "<<=", ">>=", "&&=", "||=", "??=", ">>>", "==", "!=", "<=", ">=",
     "&&", "||", "??", "=>", "**", "+=", "-=", "*=", "/=", "%=", "&=", "|=", "^=", "<<", ">>", "++",
     "--", "=", "+", "-", "*", "/", "%", "<", ">"].map String.toList := by
  simp [OperatorTable.byLength, operators, List.mergeSort, List.MergeSort.Internal.splitInTwo]

theorem Rule.run_eq_nil {spec : Spec} {info : RuleInfo} {check : Nat → Text → List Finding}
    {lines : List Text} (h : ∀ i, ∀ line ∈ lines, check i line = []) :
    (ofCheck spec info (eachLine check)).run lines = .ok [] := by
  have hfound : eachLine check lines = [] := by
    refine List.eq_nil_iff_forall_not_mem.mpr fun f hf => ?_
    obtain ⟨i, line, hline, hcheck⟩ := mem_eachLine.mp hf
    rw [h i line (List.mem_of_getElem? hline)] at hcheck
    cases hcheck
  simp only [ofCheck, ofFindings, hfound]
  rfl

theorem Rule.exists_report_of_mem {spec : Spec} {info : RuleInfo}
    {check : Nat → Text → List Finding} {lines : List Text} {ds : List Diagnostic} {d : Diagnostic}
    (hrun : (ofCheck spec info (eachLine check)).run lines = .ok ds) (hd : d ∈ ds) :
    ∃ (i : Nat) (line : Text), lines[i]? = some line ∧
      ∃ f ∈ check i line, spec.report lines f = .ok d := by
  obtain ⟨f, hf, hreport⟩ := (mem_iff_of_run_ofCheck hrun).mp hd
  obtain ⟨i, line, hline, hcheck⟩ := Rule.mem_eachLine.mp hf
  exact ⟨i, line, hline, f, hcheck, hreport⟩

section Places

variable {spec : Spec} {info : RuleInfo} {check : Nat → Text → List Finding}
  {front back : List Text} {line : Text} {ds : List Diagnostic} {f : Finding}

theorem Rule.run_eachLine_append_cons :
    (ofCheck spec info (eachLine check)).run (front ++ line :: back) =
      (eachLine check front ++ (check front.length line ++
        (back.zipIdx (front.length + 1)).flatMap fun (line, index) => check index line)).mapM
          (spec.report (front ++ line :: back)) := by
  have hsplit : eachLine check (front ++ line :: back) = eachLine check front ++
      (check front.length line ++
        (back.zipIdx (front.length + 1)).flatMap fun (line, index) => check index line) := by
    simp [eachLine, List.zipIdx_append, List.zipIdx_cons]
  rw [← hsplit]
  rfl

theorem Spec.report_of_eq (hf : f.index = front.length) :
    spec.report (front ++ line :: back) f = spec.diagnostic (front.length + 1) line f := by
  rw [Spec.report, hf, List.getElem?_append_right (Nat.le_refl _), Nat.sub_self]
  rfl

theorem Spec.report_of_ne (hf : f.index ≠ front.length) (line line' : Text) :
    spec.report (front ++ line :: back) f = spec.report (front ++ line' :: back) f := by
  have hsame : (front ++ line :: back)[f.index]? = (front ++ line' :: back)[f.index]? := by
    rcases Nat.lt_or_gt_of_ne hf with hlt | hgt
    · rw [List.getElem?_append_left hlt, List.getElem?_append_left hlt]
    · obtain ⟨k, hk⟩ := Nat.exists_eq_add_of_lt hgt
      rw [List.getElem?_append_right (Nat.le_of_lt hgt),
        List.getElem?_append_right (Nat.le_of_lt hgt), hk, Nat.add_assoc, Nat.add_sub_cancel_left,
        List.getElem?_cons_succ, List.getElem?_cons_succ]
  rw [Spec.report, Spec.report, hsame]

/-- With another line in the place of one, the reports on all others stay as they are. -/
theorem Rule.exists_reports_beside (hindex : ∀ i line, ∀ f ∈ check i line, f.index = i)
    (hrun : (ofCheck spec info (eachLine check)).run (front ++ line :: back) = .ok ds) :
    ∃ first own last, ds = first ++ (own ++ last) ∧
      (∀ d ∈ first ++ last, d.line ≠ front.length + 1) ∧
      (check front.length line).mapM (spec.diagnostic (front.length + 1) line) = .ok own ∧
      ∀ line' own',
        (check front.length line').mapM (spec.diagnostic (front.length + 1) line') = .ok own' →
          (ofCheck spec info (eachLine check)).run (front ++ line' :: back) =
            .ok (first ++ (own' ++ last)) := by
  let behind := (back.zipIdx (front.length + 1)).flatMap fun (line, index) => check index line
  have hfront : ∀ f ∈ eachLine check front, f.index ≠ front.length := by
    intro f hf
    obtain ⟨i, other, hother, hcheck⟩ := mem_eachLine.mp hf
    rw [hindex i other f hcheck]
    exact Nat.ne_of_lt (List.getElem?_eq_some_iff.mp hother).1
  have hbehind : ∀ f ∈ behind, f.index ≠ front.length := by
    intro f hf
    obtain ⟨⟨other, i⟩, hother, hcheck⟩ := List.mem_flatMap.mp hf
    rw [hindex i other f hcheck]
    exact Nat.ne_of_gt (List.le_snd_of_mem_zipIdx hother)
  have hown : ∀ line, (check front.length line).mapM (spec.report (front ++ line :: back)) =
      (check front.length line).mapM (spec.diagnostic (front.length + 1) line) := fun line =>
    mapM_congr fun f hf => Spec.report_of_eq (hindex _ line f hf)
  have hline : ∀ fs : List Finding, (∀ f ∈ fs, f.index ≠ front.length) → ∀ {ds : List Diagnostic},
      fs.mapM (spec.report (front ++ line :: back)) = .ok ds →
        ∀ d ∈ ds, d.line ≠ front.length + 1 := by
    intro fs hfs ds hreports d hd
    obtain ⟨f, hf, hreport⟩ := mem_of_mapM_eq_ok hreports hd
    have hne := hfs f hf
    rw [(Spec.report_eq_ok hreport).1]
    omega
  rw [run_eachLine_append_cons] at hrun
  obtain ⟨first, rest, hfirst, hrest, rfl⟩ := mapM_append_eq_ok_iff.mp hrun
  obtain ⟨own, last, howns, hlast, rfl⟩ := mapM_append_eq_ok_iff.mp hrest
  refine ⟨first, own, last, rfl, List.forall_mem_append.mpr
    ⟨hline _ hfront hfirst, hline _ hbehind hlast⟩, by rw [← hown, howns], fun line' own' h => ?_⟩
  rw [run_eachLine_append_cons, mapM_append_eq_ok_iff]
  refine ⟨first, own' ++ last, ?_, mapM_append_eq_ok_iff.mpr ⟨own', last, ?_, ?_, rfl⟩, rfl⟩
  · rw [← hfirst]
    exact mapM_congr fun f hf => Spec.report_of_ne (hfront f hf) line' line
  · rw [hown, h]
  · rw [← hlast]
    exact mapM_congr fun f hf => Spec.report_of_ne (hbehind f hf) line' line

end Places

namespace OperatorSpacing

variable {r : OperatorSpacing} {lines : List Text} {line : Text} {i : Nat} {f : Finding}

theorem check_eq_nil_of_not_tight (hoperators : (r.normalize line).operators = [])
    (hkeywords : (r.normalize line).keywords = []) (i : Nat) : r.check i line = [] := by
  unfold check
  split_ifs
  · rfl
  · simp only [hoperators, hkeywords]

theorem check_eq_nil (h : r.normalize line = ⟨line, [], []⟩) (i : Nat) : r.check i line = [] :=
  check_eq_nil_of_not_tight (by rw [h]) (by rw [h]) i

theorem mem_check (h : f ∈ r.check i line) :
    f.index = i ∧ f.replacement = some (r.normalize line).line := by
  unfold check at h
  split_ifs at h with hskips
  · cases h
  · simp only at h
    split at h
    · obtain rfl := List.mem_singleton.mp h
      exact ⟨rfl, rfl⟩
    · obtain rfl := List.mem_singleton.mp h
      exact ⟨rfl, rfl⟩
    · cases h

theorem run_rule_eq_nil (h : ∀ line ∈ lines, r.normalize line = ⟨line, [], []⟩) :
    r.rule.run lines = .ok [] :=
  Rule.run_eq_nil fun i _ hline => check_eq_nil (h _ hline) i

/-- What is reported is a line of the text, with the spaced line in its place. -/
theorem exists_normalize_of_mem {ds : List Diagnostic} {d : Diagnostic}
    (hrun : r.rule.run lines = .ok ds) (hd : d ∈ ds) :
    ∃ i : Nat, d.line = i + 1 ∧ lines[i]? = some d.snippet ∧
      d.replacement = some (r.normalize d.snippet).line := by
  obtain ⟨i, line, hline, f, hcheck, hreport⟩ := Rule.exists_report_of_mem hrun hd
  obtain ⟨hat, hquoted, -, -, hnew⟩ := Spec.report_eq_ok hreport
  obtain ⟨rfl, hreplacement⟩ := mem_check hcheck
  obtain rfl := Option.some.inj (hline.symm.trans hquoted)
  exact ⟨f.index, hat, hline, hnew.trans hreplacement⟩

def tightReport (r : OperatorSpacing) (i : Nat) (operator line : Text) : Diagnostic where
  code := "LINT_FORMAT_OPERATOR_SPACING"
  message := "Missing spaces around operator '".toList ++ operator ++ ['\'']
  line := i + 1
  category := "Formatting"
  suggestion := "Add spaces around operators".toList
  snippet := line
  replacement := some (r.normalize line).line

theorem check_eq_singleton {operator : Text} {others : List Text}
    (hskips : skips r.style r.skipped line = false)
    (htight : (r.normalize line).operators = operator :: others) :
    r.check i line =
      [{ index := i, replacement := (r.normalize line).line,
         fields := [("operator", operator)] }] := by
  unfold check
  rw [if_neg (by simp [hskips])]
  simp only [htight]

theorem report_eq_tightReport {operator : Text} (hline : lines[i]? = some line) :
    Spec.operatorSpacing.report lines
      { index := i, replacement := (r.normalize line).line, fields := [("operator", operator)] } =
        .ok (r.tightReport i operator line) := by
  unfold Spec.report
  rw [hline]
  rfl

theorem tightReport_mem {ds : List Diagnostic} {operator : Text} {others : List Text}
    (hrun : r.rule.run lines = .ok ds) (hline : lines[i]? = some line)
    (hskips : skips r.style r.skipped line = false)
    (htight : (r.normalize line).operators = operator :: others) :
    r.tightReport i operator line ∈ ds := by
  refine (Rule.mem_iff_of_run_ofCheck hrun).mpr ⟨_, ?_, report_eq_tightReport hline⟩
  refine Rule.mem_eachLine.mpr ⟨i, line, hline, ?_⟩
  rw [check_eq_singleton hskips htight]
  exact List.mem_singleton_self _

end OperatorSpacing

/-- Where no operator and no call is too tight, the rules of Python behind the first one report all
that there is to report. -/
theorem Python.runAll_rules {lines : List Text} (hloose : ∀ line ∈ lines,
    (spacing.normalize line).operators = [] ∧ (spacing.normalize line).keywords = []) :
    Rule.runAll rules lines = Rule.runAll rules.tail lines := by
  have hspacing : spacing.rule.run lines = .ok [] := Rule.run_eq_nil fun i line hline =>
    OperatorSpacing.check_eq_nil_of_not_tight (hloose line hline).1 (hloose line hline).2 i
  change Rule.runGuarded lines spacing.rule ++ Rule.runAll rules.tail lines = _
  rw [Rule.runGuarded_of_ok hspacing, List.nil_append]

end LineLint
