import LineLint.IndentationStep
import LineLint.Proofs.RewrittenLines
import LineLint.Proofs.ScannedLines
import LineLint.Proofs.ScopedLines
import Mathlib.Order.Bounds.Basic

/-!
# Indentation in steps settles

The rule rounds the indentation of a line down to whole units. Its fixes touch nothing but the
spaces and tabs that the lines start with, so that the same lines go on with a statement as before,
and an indentation that was rounded has nothing left to be rounded.
-/

namespace LineLint

namespace IndentationStep

variable {r : IndentationStep} {line : Text} {lines : List Text} {continued : Bool}
  {index : Nat}

def flags (r : IndentationStep) (lines : List Text) : List Bool :=
  if r.continuations then LineScan.continued r.style lines else lines.map fun _ => false

def judgesAny (r : IndentationStep) (lines : List Text) : Bool :=
  (lines.zip (r.flags lines)).any fun entry => r.judges entry.1 entry.2

/-- What the indentation of a line has beyond whole units. -/
def rest (r : IndentationStep) (line : Text) : Int :=
  Int.fmod (Indentation.lineWidth r.unit line) r.unit

def rounds (r : IndentationStep) (line : Text) (continued : Bool) : Bool :=
  r.judges line continued && r.rest line != 0

def rounded (r : IndentationStep) (line : Text) : Text :=
  Text.spaces (Indentation.lineWidth r.unit line - r.rest line) ++ line.dropIndentation

def finding (r : IndentationStep) (index : Nat) (line : Text) : Finding where
  index := index
  replacement := r.rounded line
  fields := [("unit", Text.ofInt r.unit), ("width", Text.ofInt (Indentation.lineWidth r.unit line))]

section Flags

theorem length_flags (r : IndentationStep) (lines : List Text) :
    (r.flags lines).length = lines.length := by
  unfold flags
  split_ifs
  · exact LineScan.length_continued r.style lines
  · exact List.length_map _

theorem flags_congr (hstyle : r.style.IsOrdinary) {lines' : List Text}
    (h : lines.map Text.trim = lines'.map Text.trim) : r.flags lines = r.flags lines' := by
  have hlength : lines.length = lines'.length := by
    rw [← List.length_map Text.trim, h, List.length_map]
  unfold flags
  split_ifs
  · exact LineScan.continued_congr hstyle h
  · rw [List.map_const', List.map_const', hlength]

theorem allBlank_of_judges (h : r.judges line continued = true) : line.allBlank = false := by
  simp only [judges, Bool.and_eq_true, Bool.not_eq_true'] at h
  exact h.1.1

end Flags

section Rounding

theorem dropIndentation_rounded (r : IndentationStep) (line : Text) :
    (r.rounded line).dropIndentation = line.dropIndentation :=
  Text.dropIndentation_append_dropIndentation (fun _ => Text.isSpaceOrTab_of_mem_spaces) line

theorem indentation_rounded (r : IndentationStep) (line : Text) :
    (r.rounded line).indentation =
      Text.spaces (Indentation.lineWidth r.unit line - r.rest line) :=
  Text.indentation_append_dropIndentation_of_forall
    (fun _ => Text.isSpaceOrTab_of_mem_spaces) line

variable (hunit : 1 ≤ r.unit)
include hunit

theorem exists_lineWidth_sub_rest_eq (line : Text) :
    ∃ n : Nat, Indentation.lineWidth r.unit line - r.rest line = n * r.unit := by
  have hnonneg : 0 ≤ (Indentation.lineWidth r.unit line : Int) / r.unit :=
    Int.ediv_nonneg (Int.natCast_nonneg _) (by omega)
  refine ⟨((Indentation.lineWidth r.unit line : Int) / r.unit).toNat, ?_⟩
  have hwhole := Int.emod_add_mul_ediv (Indentation.lineWidth r.unit line) r.unit
  rw [Int.toNat_of_nonneg hnonneg, rest, Int.fmod_eq_emod_of_nonneg _ (by omega), Int.mul_comm]
  omega

theorem lineWidth_rounded (line : Text) :
    (Indentation.lineWidth r.unit (r.rounded line) : Int) =
      Indentation.lineWidth r.unit line - r.rest line := by
  obtain ⟨n, hn⟩ := exists_lineWidth_sub_rest_eq hunit line
  refine Indentation.lineWidth_of_indentation_eq_spaces ?_ (r.indentation_rounded line)
  rw [hn]
  exact Int.mul_nonneg (Int.natCast_nonneg n) (by omega)

/-- The new width is the greatest of the multiples that do not exceed the old one. -/
theorem isGreatest_lineWidth_rounded (line : Text) :
    IsGreatest {w : Int | r.unit ∣ w ∧ w ≤ Indentation.lineWidth r.unit line}
      (Indentation.lineWidth r.unit (r.rounded line)) := by
  obtain ⟨n, hn⟩ := exists_lineWidth_sub_rest_eq hunit line
  have hrest : 0 ≤ r.rest line ∧ r.rest line < r.unit :=
    ⟨Int.fmod_nonneg_of_pos _ (by omega), Int.fmod_lt_of_pos _ (by omega)⟩
  rw [lineWidth_rounded hunit]
  refine ⟨⟨⟨n, by rw [hn, Int.mul_comm]⟩, by omega⟩, ?_⟩
  rintro w ⟨⟨k, rfl⟩, hle⟩
  -- one unit more would exceed the old width
  have hlt : k < n + 1 := by
    refine Int.lt_of_mul_lt_mul_left (a := r.unit) ?_ (by omega)
    rw [Int.mul_add, Int.mul_one, Int.mul_comm r.unit n]
    omega
  rw [hn, Int.mul_comm (n : Int)]
  exact Int.mul_le_mul_of_nonneg_left (by omega) (by omega)

theorem rounds_rounded (line : Text) (continued : Bool) :
    r.rounds (r.rounded line) continued = false := by
  obtain ⟨n, hn⟩ := exists_lineWidth_sub_rest_eq hunit line
  have hnone : r.rest (r.rounded line) = 0 := by
    rw [rest, lineWidth_rounded hunit, hn]
    exact Int.mul_fmod_left _ _
  simp [rounds, hnone]

theorem isWholeLine_rounded (hunbroken : line.IsUnbroken) (hcode : line.allBlank = false) :
    Fixing.IsWholeLine r.unit (r.rounded line) := by
  obtain ⟨n, hn⟩ := exists_lineWidth_sub_rest_eq hunit line
  refine ⟨fun hnil => ?_, ⟨?_, ?_⟩, n, ?_⟩
  · exact Text.dropIndentation_ne_nil hcode (List.append_eq_nil_iff.mp hnil).2
  · simp [rounded, hunbroken.newline]
  · simp [rounded, hunbroken.carriageReturn]
  · rw [indentation_rounded, hn]

end Rounding

section Check

theorem checkLine_of_not_judges (h : r.judges line continued = false) (index : Nat) :
    r.checkLine index line continued = .ok [] := by
  rw [checkLine, if_pos (by simp [h])]
  rfl

theorem checkLine_of_tabRange (htab : Indentation.isTabWidth r.unit = false)
    (h : r.judges line continued = true) (index : Nat) :
    r.checkLine index line continued = .error .tabRange := by
  rw [checkLine, if_neg (by simp [h]), Indentation.measureLine_of_isTabWidth_eq_false htab]
  rfl

theorem checkLine_eq (hunit : Indentation.IsUsable r.unit) (index : Nat) (line : Text)
    (continued : Bool) :
    r.checkLine index line continued =
      .ok (if r.rounds line continued then [r.finding index line] else []) := by
  cases hjudges : r.judges line continued with
  | false =>
      rw [checkLine_of_not_judges hjudges, rounds, hjudges]
      rfl
  | true =>
      rw [checkLine, if_neg (by simp [hjudges]), Indentation.measureLine_of_isUsable hunit]
      simp only [bind, Except.bind, Indentation.beyond_of_isUsable hunit]
      by_cases hwhole : r.rest line = 0
      · rw [rounds, hwhole, if_pos (by simpa [rest] using hwhole)]
        simp [pure, Except.pure]
      · rw [rounds, hjudges, if_neg (by simpa [rest] using hwhole), if_pos (by simpa using hwhole)]
        rfl

def findings (r : IndentationStep) (index : Nat) (entries : List (Text × Bool)) : List Finding :=
  (entries.zipIdx index).flatMap fun ((line, continued), i) =>
    if r.rounds line continued then [r.finding i line] else []

theorem check_eq (hunit : Indentation.IsUsable r.unit) (lines : List Text) :
    r.check lines = .ok (r.findings 0 (lines.zip (r.flags lines))) := by
  have hcheck : ∀ entry ∈ (lines.zip (r.flags lines)).zipIdx,
      r.checkLine entry.2 entry.1.1 entry.1.2 =
        .ok (if r.rounds entry.1.1 entry.1.2 then [r.finding entry.2 entry.1.1] else []) :=
    fun entry _ => r.checkLine_eq hunit entry.2 entry.1.1 entry.1.2
  rw [check]
  change ((lines.zip (r.flags lines)).zipIdx.mapM _ >>= _) = _
  rw [mapM_eq_ok hcheck, findings, List.flatMap_def]
  rfl

theorem run_of_judgesAny_eq_false (h : r.judgesAny lines = false) : r.rule.run lines = .ok [] := by
  have hnone : ∀ entry ∈ (lines.zip (r.flags lines)).zipIdx,
      r.checkLine entry.2 entry.1.1 entry.1.2 = .ok [] := by
    rintro ⟨⟨line, continued⟩, i⟩ hentry
    have hmem := List.mem_of_getElem? (List.mem_zipIdx_iff_getElem?.mp hentry)
    exact checkLine_of_not_judges (by simpa using List.any_eq_false.mp h _ hmem) i
  have hcheck : r.check lines = .ok [] := by
    rw [check]
    change ((lines.zip (r.flags lines)).zipIdx.mapM _ >>= _) = _
    rw [mapM_eq_ok hnone]
    simp [bind, Except.bind, pure, Except.pure]
  exact bind_eq_ok_iff.mpr ⟨[], hcheck, rfl⟩

/-- With a unit that is too wide for tabs, the first line that is judged fails. -/
theorem run_of_tabRange (htab : Indentation.isTabWidth r.unit = false)
    (h : r.judgesAny lines = true) : r.rule.run lines = .error .tabRange := by
  have hcheck : r.check lines = .error .tabRange := by
    rw [check]
    change ((lines.zip (r.flags lines)).zipIdx.mapM _ >>= _) = _
    rw [mapM_eq_error]
    · rfl
    · rintro ⟨⟨line, continued⟩, i⟩ -
      cases hjudges : r.judges line continued with
      | false => exact Or.inr ⟨[], checkLine_of_not_judges hjudges i⟩
      | true => exact Or.inl (checkLine_of_tabRange htab hjudges i)
    · obtain ⟨⟨line, continued⟩, hentry, hjudges⟩ := List.any_eq_true.mp h
      obtain ⟨i, hi⟩ := List.mem_iff_getElem?.mp hentry
      exact ⟨⟨⟨line, continued⟩, i⟩, List.mem_zipIdx_iff_getElem?.mpr hi,
        checkLine_of_tabRange htab hjudges i⟩
  rw [rule, Rule.ofFindings]
  simp only [hcheck]
  rfl

end Check

section Settled

def settle (r : IndentationStep) (line : Text) (continued : Bool) : Text :=
  if r.rounds line continued then r.rounded line else line

def settled (r : IndentationStep) (lines : List Text) : List Text :=
  (lines.zip (r.flags lines)).map fun entry => r.settle entry.1 entry.2

theorem dropIndentation_settle (r : IndentationStep) (line : Text) (continued : Bool) :
    (r.settle line continued).dropIndentation = line.dropIndentation := by
  unfold settle
  split_ifs
  · exact r.dropIndentation_rounded line
  · rfl

theorem map_dropIndentation_settled (r : IndentationStep) (lines : List Text) :
    (r.settled lines).map Text.dropIndentation = lines.map Text.dropIndentation := by
  conv_rhs => rw [← List.map_fst_zip (r.length_flags lines).ge]
  rw [settled, List.map_map, List.map_map]
  exact List.map_congr_left fun entry _ => r.dropIndentation_settle entry.1 entry.2

theorem map_trim_settled (r : IndentationStep) (lines : List Text) :
    (r.settled lines).map Text.trim = lines.map Text.trim := by
  have hcode := congrArg (List.map Text.trim) (r.map_dropIndentation_settled lines)
  simpa only [List.map_map, Function.comp_def, Text.trim_dropIndentation] using hcode

theorem rounds_settle (hunit : 1 ≤ r.unit) (line : Text) (continued : Bool) :
    r.rounds (r.settle line continued) continued = false := by
  cases hrounds : r.rounds line continued with
  | false => rw [settle, hrounds, if_neg Bool.false_ne_true, hrounds]
  | true => rw [settle, hrounds, if_pos rfl, rounds_rounded hunit]

theorem run_settled (hstyle : r.style.IsOrdinary) (hunit : 1 ≤ r.unit)
    (htab : Indentation.isTabWidth r.unit = true) (lines : List Text) :
    r.rule.run (r.settled lines) = .ok [] := by
  have hcheck : r.check (r.settled lines) = .ok [] := by
    rw [check_eq ⟨by omega, htab⟩, flags_congr hstyle (r.map_trim_settled lines)]
    refine congrArg Except.ok (List.flatMap_eq_nil_iff.mpr ?_)
    rintro ⟨⟨line, continued⟩, i⟩ hentry
    have hmem := List.mem_zipIdx_iff_getElem?.mp hentry
    obtain ⟨hsettled, hflag⟩ := List.getElem?_zip_eq_some.mp hmem
    rw [settled, List.getElem?_map, Option.map_eq_some_iff] at hsettled
    obtain ⟨⟨old, flag⟩, hold, rfl⟩ := hsettled
    obtain rfl : flag = continued :=
      Option.some.inj ((List.getElem?_zip_eq_some.mp hold).2.symm.trans hflag)
    exact if_neg (by rw [rounds_settle hunit]; exact Bool.false_ne_true)
  exact bind_eq_ok_iff.mpr ⟨[], hcheck, rfl⟩

end Settled

section Reports

variable {entries : List (Text × Bool)} {ds : List Diagnostic} {found : List Finding}

theorem findings_cons (r : IndentationStep) (index : Nat) (line : Text) (continued : Bool)
    (entries : List (Text × Bool)) :
    r.findings index ((line, continued) :: entries) =
      (if r.rounds line continued then [r.finding index line] else []) ++
        r.findings (index + 1) entries := rfl

theorem exists_rewrites (hunit : 1 ≤ r.unit) (hunbroken : ∀ line ∈ lines, line.IsUnbroken)
    (hstand : StandFor lines index entries) :
    ∃ ds, (r.findings index entries).mapM (Spec.indentation.report lines) = .ok ds ∧
      Fixing.Rewrites r.unit index (entries.map (·.1)) ds
        (entries.map fun entry => r.settle entry.1 entry.2) := by
  induction entries generalizing index with
  | nil => exact ⟨[], rfl, .nil index⟩
  | cons entry rest ih =>
      obtain ⟨line, continued⟩ := entry
      obtain ⟨ds, hreports, hrewrites⟩ := ih hstand.tail
      rw [findings_cons, List.map_cons, List.map_cons, settle]
      cases hrounds : r.rounds line continued with
      | false => exact ⟨ds, hreports, hrewrites.keep⟩
      | true =>
          have hjudges : r.judges line continued = true :=
            (Bool.and_eq_true_iff.mp hrounds).1
          have hwhole := isWholeLine_rounded hunit
            (hunbroken line (List.mem_of_getElem? hstand.head)) (allBlank_of_judges hjudges)
          obtain ⟨d, hreport, hput⟩ := Fixing.exists_putsLine_report .indentation
            (r.finding index line) hstand.head (Finding.fills_of_fields rfl) rfl hwhole
            (by decide) (by decide)
          refine ⟨d :: ds, ?_, .put hput hwhole hrewrites⟩
          rw [if_pos rfl, List.singleton_append, List.mapM_cons, hreport, hreports]
          rfl

theorem exists_run_rewrites (hunit : 1 ≤ r.unit) (htab : Indentation.isTabWidth r.unit = true)
    (hunbroken : ∀ line ∈ lines, line.IsUnbroken) :
    ∃ ds, r.rule.run lines = .ok ds ∧ Fixing.Rewrites r.unit 0 lines ds (r.settled lines) := by
  obtain ⟨ds, hreports, hrewrites⟩ :=
    exists_rewrites hunit hunbroken (standFor_zip lines (r.flags lines))
  rw [List.map_fst_zip (r.length_flags lines).ge] at hrewrites
  exact ⟨ds, bind_eq_ok_iff.mpr ⟨_, check_eq ⟨by omega, htab⟩ lines, hreports⟩, hrewrites⟩

theorem exists_rounded_of_mem (hunit : 1 ≤ r.unit) (htab : Indentation.isTabWidth r.unit = true)
    (hrun : r.rule.run lines = .ok ds) {d : Diagnostic} (hd : d ∈ ds) :
    ∃ (i : Nat) (line : Text), d.line = i + 1 ∧ lines[i]? = some line ∧
      (r.settled lines)[i]? = some (r.rounded line) := by
  obtain ⟨found, hcheck, f, hf, hreport⟩ := Rule.exists_found_of_mem hrun hd
  obtain rfl := Except.ok.inj (hcheck.symm.trans (check_eq ⟨by omega, htab⟩ lines))
  obtain ⟨⟨⟨line, continued⟩, i⟩, hentry, hfound⟩ := List.mem_flatMap.mp hf
  have hget := List.mem_zipIdx_iff_getElem?.mp hentry
  simp only at hfound
  split_ifs at hfound with hrounds
  · obtain rfl := List.mem_singleton.mp hfound
    refine ⟨i, line, (Spec.report_eq_ok hreport).1, (List.getElem?_zip_eq_some.mp hget).1, ?_⟩
    rw [settled, List.getElem?_map, hget, Option.map_some, settle, if_pos hrounds]
  · cases hfound

end Reports

/-- What comes of the lines that reports of the rule are carried out on. A new width is the greatest
of the multiples of the unit that do not exceed the old one. -/
structure IsRounded (r : IndentationStep) (lines : List Text) (ds : List Diagnostic)
    (lines' : List Text) : Prop where
  code : lines'.map Text.dropIndentation = lines.map Text.dropIndentation
  untouched : ∀ i : Nat, (∀ d ∈ ds, d.line ≠ i + 1) → lines'[i]? = lines[i]?
  rounded : ∀ d ∈ ds, ∃ (i : Nat) (old new : Text), d.line = i + 1 ∧ lines[i]? = some old ∧
    lines'[i]? = some new ∧ IsGreatest {w : Int | r.unit ∣ w ∧ w ≤ Indentation.lineWidth r.unit old}
      (Indentation.lineWidth r.unit new)
  settled : r.rule.run lines' = .ok []

/-- Whether the fixes that the rule asks for are all carried out and round the lines of a text. -/
def RoundsAll (r : IndentationStep) (text : Text) : Prop :=
  ∃ ds, r.rule.run (SourceLines.ofText text).lines = .ok ds ∧
    (applyFixes { indentUnit := r.unit } text ds).skipped = [] ∧
    r.IsRounded (SourceLines.ofText text).lines ds
      (SourceLines.ofText (applyFixes { indentUnit := r.unit } text ds).text).lines

section Texts

variable {text : Text}

theorem roundsAll_of_isTabWidth (hstyle : r.style.IsOrdinary) (hunit : 1 ≤ r.unit)
    (htab : Indentation.isTabWidth r.unit = true) (hreturn : '\r' ∉ text) : r.RoundsAll text := by
  obtain ⟨ds, hrun, hrewrites⟩ := exists_run_rewrites hunit htab
    (SourceLines.isUnbroken_of_mem_lines hreturn)
  refine ⟨ds, hrun, hrewrites.skipped_eq_nil hunit htab, ?_⟩
  rw [hrewrites.lines_eq hunit htab hreturn]
  refine ⟨r.map_dropIndentation_settled _, fun i hi => ?_, fun d hd => ?_,
    run_settled hstyle hunit htab _⟩
  · exact hrewrites.getElem?_eq (by simpa using hi)
  · obtain ⟨i, old, hat, hold, hnew⟩ := exists_rounded_of_mem hunit htab hrun hd
    exact ⟨i, old, r.rounded old, hat, hold, hnew, isGreatest_lineWidth_rounded hunit old⟩

theorem roundsAll_of_judgesAny_eq_false (hreturn : '\r' ∉ text)
    (h : r.judgesAny (SourceLines.ofText text).lines = false) : r.RoundsAll text := by
  have hrun := run_of_judgesAny_eq_false h
  refine ⟨[], hrun, by rw [Fixing.applyFixes_nil], ?_⟩
  rw [Fixing.lines_applyFixes_nil _ hreturn]
  exact ⟨rfl, fun _ _ => rfl, List.forall_mem_nil _, hrun⟩

end Texts

/-- For the languages at hand, rounding settles each text without carriage returns, for every unit
that tabs can be measured in. With a wider one the rule fails, unless there is no line to judge. -/
theorem roundsAll_or_tabRange {a : Analyzer} (ha : a ∈ Registry.builtin.analyzers)
    (continuations : Bool) {text : Text} (hreturn : '\r' ∉ text) {unit : Int} (hunit : 1 ≤ unit) :
    let r : IndentationStep := { unit, style := a.profile.style, continuations }
    let judged := r.judgesAny (SourceLines.ofText text).lines
    (unit < 2 ^ 31 ∨ judged = false → r.RoundsAll text) ∧
      (2 ^ 31 ≤ unit → judged = true →
        r.rule.run (SourceLines.ofText text).lines = .error .tabRange) := by
  intro r judged
  have hstyle : r.style.IsOrdinary := Registry.isOrdinary_of_mem_builtin a ha
  constructor
  · rintro (hlt | hnone)
    · have htab : Indentation.isTabWidth unit = true :=
        Indentation.isTabWidth_iff.mpr ⟨by omega, hlt⟩
      exact roundsAll_of_isTabWidth hstyle hunit htab hreturn
    · exact roundsAll_of_judgesAny_eq_false hreturn hnone
  · intro hwide hsome
    have htab : Indentation.isTabWidth unit = false := Bool.eq_false_iff.mpr fun htab =>
      absurd (Indentation.isTabWidth_iff.mp htab).2 (by omega)
    exact run_of_tabRange htab hsome

def unevenSteps : Text :=
  "if f(a,\n  b):\n \t x = 'a  \n \ty = 2\n\n  z".toList

theorem roundsAll_or_tabRange_unevenSteps :
    let r : IndentationStep := { unit := 4, style := Python.profile.style }
    r.settled (SourceLines.ofText unevenSteps).lines =
        ["if f(a,", "  b):", "    x = 'a  ", " \ty = 2", "", "z"].map String.toList ∧
      r.RoundsAll unevenSteps ∧
      { r with unit := 2 ^ 31 }.rule.run (SourceLines.ofText unevenSteps).lines =
        .error .tabRange := by
  have hreturn : '\r' ∉ unevenSteps := by decide +kernel
  have hpython : (⟨Python.profile, Python.rules⟩ : Analyzer) ∈ Registry.builtin.analyzers := by
    simp [Registry.builtin]
  obtain ⟨hrounds, -⟩ := @roundsAll_or_tabRange _ hpython true _ hreturn 4 (by decide)
  obtain ⟨-, hfails⟩ := @roundsAll_or_tabRange _ hpython true _ hreturn (2 ^ 31) (by decide)
  exact ⟨by decide +kernel, hrounds (Or.inl (by decide)), hfails (by decide) (by decide +kernel)⟩

/-- A unit that tabs cannot be measured in rounds no line that has to be judged. -/
theorem not_roundsAll_wideUnit :
    ¬∀ a ∈ Registry.builtin.analyzers, ∀ (continuations : Bool) (text : Text) (unit : Int),
      '\r' ∉ text → 1 ≤ unit →
        IndentationStep.RoundsAll { unit, style := a.profile.style, continuations } text := by
  intro hall
  obtain ⟨ds, hrun, -⟩ :=
    hall ⟨Python.profile, Python.rules⟩ (by simp [Registry.builtin]) true ['a']
    (2 ^ 31) (by decide) (by decide)
  rw [run_of_tabRange (by decide) (by decide)] at hrun
  cases hrun

end IndentationStep

end LineLint
