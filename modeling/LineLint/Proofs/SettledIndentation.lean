import LineLint.Proofs.RewrittenLines
import LineLint.Proofs.ScannedLines
import LineLint.Proofs.ScopedLines
import LineLint.Proofs.SoundRules

/-!
# Indentation by scopes settles

The rule puts some lines at the indentation that their scopes ask for. The fixed lines are trimmed
to the same texts, so that each of them stands in the same scopes as before, goes on or stands apart
as before, and now has the indentation that is asked of it.
-/

namespace LineLint

/-- Whether a rule settles a text: its fixes are all carried out, they change no line but for the
blanks around it, and on the fixed lines the rule reports nothing. -/
def Rule.Settles (rule : Rule) (settings : FixSettings) (text : Text) : Prop :=
  ∃ ds, rule.run (SourceLines.ofText text).lines = .ok ds ∧
    (applyFixes settings text ds).skipped = [] ∧
    (SourceLines.ofText (applyFixes settings text ds).text).lines.map Text.trim =
      (SourceLines.ofText text).lines.map Text.trim ∧
    rule.run (SourceLines.ofText (applyFixes settings text ds).text).lines = .ok []

namespace IndentationScope

variable {r : IndentationScope} {scopes : List Int} {line : Text} {lines : List Text}
  {continued : Bool} {flags : List Bool} {entries : List (Text × Bool)} {index : Nat}

section Levels

/-- Open scopes that each indent by one unit or not at all. -/
def AllUnits (r : IndentationScope) (scopes : List Int) : Prop :=
  ∀ scope ∈ scopes, scope = 0 ∨ scope = r.unit

theorem allUnits_nil (r : IndentationScope) : r.AllUnits [] := List.forall_mem_nil _

theorem AllUnits.scopesAt (h : r.AllUnits scopes) (line : Text) :
    r.AllUnits (r.scopesAt scopes line) := by
  unfold IndentationScope.scopesAt
  split_ifs
  · exact fun scope hscope => h scope (List.mem_of_mem_drop hscope)
  · exact h

theorem AllUnits.scopesAfter (h : r.AllUnits scopes) (line : Text) :
    r.AllUnits (r.scopesAfter scopes line) := by
  unfold IndentationScope.scopesAfter
  split_ifs
  · exact List.forall_mem_cons.mpr ⟨Or.inl rfl, h.scopesAt line⟩
  · exact List.forall_mem_cons.mpr ⟨Or.inr rfl, h.scopesAt line⟩
  · exact h.scopesAt line

theorem AllUnits.exists_sum_eq (h : r.AllUnits scopes) :
    ∃ n : Nat, scopes.foldr (· + ·) 0 = n * r.unit := by
  induction scopes with
  | nil => exact ⟨0, by simp⟩
  | cons scope scopes ih =>
      obtain ⟨hscope, hscopes⟩ := List.forall_mem_cons.mp h
      obtain ⟨n, hn⟩ := ih hscopes
      rw [List.foldr_cons, hn]
      rcases hscope with rfl | rfl
      · exact ⟨n, Int.zero_add _⟩
      · exact ⟨n + 1, by rw [Nat.cast_succ, Int.add_mul, Int.one_mul, Int.add_comm]⟩

theorem AllUnits.exists_expected_eq (h : r.AllUnits scopes) (line : Text) :
    ∃ n : Nat, r.expected scopes line = n * r.unit :=
  (h.scopesAt line).exists_sum_eq

end Levels

section Settled

def settle (r : IndentationScope) (scopes : List Int) (line : Text) (continued : Bool) : Text :=
  if r.misplaces scopes line continued then
    Text.spaces (r.expected scopes line) ++ line.trim
  else line

/-- What the rule makes of lines; `scopes` holds what is open before them. -/
def settleFrom (r : IndentationScope) (scopes : List Int) : List (Text × Bool) → List Text
  | [] => []
  | (line, continued) :: rest =>
      if line.trim = [] then line :: r.settleFrom scopes rest
      else r.settle scopes line continued :: r.settleFrom (r.scopesAfter scopes line) rest

theorem trim_settle (r : IndentationScope) (scopes : List Int) (line : Text) (continued : Bool) :
    (r.settle scopes line continued).trim = line.trim := by
  unfold settle
  split_ifs
  · exact Text.trim_spaces_append_trim _ _
  · rfl

theorem map_trim_settleFrom (r : IndentationScope) (scopes : List Int)
    (entries : List (Text × Bool)) :
    (r.settleFrom scopes entries).map Text.trim = entries.map fun entry => entry.1.trim := by
  induction entries generalizing scopes with
  | nil => rfl
  | cons entry rest ih =>
      obtain ⟨line, continued⟩ := entry
      rw [settleFrom]
      split_ifs
      · rw [List.map_cons, List.map_cons, ih]
      · rw [List.map_cons, List.map_cons, ih, trim_settle]

theorem misplaces_settle (hr : r.IsLegible) (hunit : 1 ≤ r.unit) (hscopes : r.AllUnits scopes)
    (hline : line.trim ≠ []) :
    r.misplaces scopes (r.settle scopes line continued) continued = false := by
  by_cases hmoved : r.misplaces scopes line continued = true
  · have htrim := trim_settle r scopes line continued
    rw [settle, if_pos hmoved] at htrim ⊢
    obtain ⟨n, hn⟩ := hscopes.exists_expected_eq line
    have hnonneg : 0 ≤ r.expected scopes line := by
      rw [hn]
      exact Int.mul_nonneg (Int.natCast_nonneg n) (by omega)
    have hwidth : Int.ofNat (Indentation.lineWidth r.unit
        (Text.spaces (r.expected scopes line) ++ line.trim)) = r.expected scopes line :=
      Indentation.lineWidth_of_indentation_eq_spaces hnonneg
        (Text.indentation_spaces_append_trim hline _)
    rw [misplaces, hwidth, expected_congr hr htrim]
    simp
  · rw [settle, if_neg hmoved]
    simpa using hmoved

theorem checkFrom_settleFrom (hr : r.IsLegible) (hunit : 1 ≤ r.unit)
    (htab : Indentation.isTabWidth r.unit = true) (hscopes : r.AllUnits scopes)
    (lines : List Text) (flags : List Bool) (index : Nat) :
    r.checkFrom index scopes ((r.settleFrom scopes (lines.zip flags)).zip flags) = .ok [] := by
  have husable : Indentation.IsUsable r.unit := ⟨by omega, htab⟩
  induction lines generalizing scopes flags index with
  | nil => rfl
  | cons line lines ih =>
      cases flags with
      | nil =>
          rw [List.zip_nil_right]
          rfl
      | cons continued flags =>
          rw [List.zip_cons_cons, settleFrom]
          by_cases hline : line.trim = []
          · rw [if_pos hline, List.zip_cons_cons, checkFrom_cons_of_blank hline, ih hscopes]
          · have htrim := trim_settle r scopes line continued
            rw [if_neg hline, List.zip_cons_cons,
              checkFrom_cons husable (by rw [htrim]; exact hline),
              misplaces_settle hr hunit hscopes hline, scopesAfter_congr hr htrim,
              ih (hscopes.scopesAfter line)]
            rfl

def settled (r : IndentationScope) (lines : List Text) : List Text :=
  r.settleFrom [] (lines.zip (LineScan.continued r.style lines))

theorem map_trim_settled (r : IndentationScope) (lines : List Text) :
    (r.settled lines).map Text.trim = lines.map Text.trim := by
  have hlength := LineScan.length_continued r.style lines
  rw [settled, map_trim_settleFrom, ← Function.comp_def, ← List.map_map,
    List.map_fst_zip hlength.ge]

theorem run_settled (hr : r.IsLegible) (hunit : 1 ≤ r.unit)
    (htab : Indentation.isTabWidth r.unit = true) (lines : List Text) :
    r.rule.run (r.settled lines) = .ok [] := by
  have hcheck : r.check (r.settled lines) = .ok [] := by
    rw [check, LineScan.continued_congr hr.ordinary (map_trim_settled r lines)]
    exact checkFrom_settleFrom hr hunit htab r.allUnits_nil lines _ 0
  exact bind_eq_ok_iff.mpr ⟨[], hcheck, rfl⟩

end Settled

section Reports

theorem exists_report_finding (hscopes : r.AllUnits scopes) (hline : lines[index]? = some line)
    (hunbroken : line.IsUnbroken) (hcode : line.trim ≠ []) :
    ∃ d, Spec.indentationConsistency.report lines (r.finding index scopes line) = .ok d ∧
      Fixing.PutsLine d index (Text.spaces (r.expected scopes line) ++ line.trim) ∧
      Fixing.IsWholeLine r.unit (Text.spaces (r.expected scopes line) ++ line.trim) := by
  obtain ⟨n, hn⟩ := hscopes.exists_expected_eq line
  have hwhole :
      Fixing.IsWholeLine r.unit (Text.spaces (r.expected scopes line) ++ line.trim) := by
    refine ⟨fun hnil => hcode (List.append_eq_nil_iff.mp hnil).2, ?_, n, ?_⟩
    · constructor
      · simp [hunbroken.newline]
      · simp [hunbroken.carriageReturn]
    · rw [Text.indentation_spaces_append_trim hcode, hn]
  obtain ⟨d, hreport, hput⟩ := Fixing.exists_putsLine_report .indentationConsistency
    (r.finding index scopes line) hline (Finding.fills_of_fields rfl) rfl hwhole (by decide)
    (by decide)
  exact ⟨d, hreport, hput, hwhole⟩

theorem exists_rewrites (hunit : 1 ≤ r.unit) (htab : Indentation.isTabWidth r.unit = true)
    (hscopes : r.AllUnits scopes) (hstand : StandFor lines index entries)
    (hunbroken : ∀ line ∈ lines, line.IsUnbroken) :
    ∃ found ds, r.checkFrom index scopes entries = .ok found ∧
      found.mapM (Spec.indentationConsistency.report lines) = .ok ds ∧
      Fixing.Rewrites r.unit index (entries.map (·.1)) ds (r.settleFrom scopes entries) := by
  have husable : Indentation.IsUsable r.unit := ⟨by omega, htab⟩
  induction entries generalizing index scopes with
  | nil => exact ⟨[], [], rfl, rfl, .nil index⟩
  | cons entry rest ih =>
      obtain ⟨line, continued⟩ := entry
      rw [settleFrom, List.map_cons]
      by_cases hline : line.trim = []
      · rw [checkFrom_cons_of_blank hline, if_pos hline]
        obtain ⟨found, ds, hfound, hreports, hrewrites⟩ := ih hscopes hstand.tail
        exact ⟨found, ds, hfound, hreports, hrewrites.keep⟩
      · rw [checkFrom_cons husable hline, if_neg hline, settle]
        obtain ⟨found, ds, hfound, hreports, hrewrites⟩ := ih (hscopes.scopesAfter line) hstand.tail
        rw [hfound]
        by_cases hmoved : r.misplaces scopes line continued = true
        · obtain ⟨d, hreport, hput, hwhole⟩ := exists_report_finding hscopes hstand.head
            (hunbroken line (List.mem_of_getElem? hstand.head)) hline
          rw [if_pos hmoved, if_pos hmoved]
          refine ⟨r.finding index scopes line :: found, d :: ds, rfl, ?_, .put hput hwhole hrewrites⟩
          rw [List.mapM_cons, hreport, hreports]
          rfl
        · rw [if_neg hmoved, if_neg hmoved]
          exact ⟨found, ds, rfl, hreports, hrewrites.keep⟩

theorem exists_run_rewrites (hunit : 1 ≤ r.unit) (htab : Indentation.isTabWidth r.unit = true)
    (hunbroken : ∀ line ∈ lines, line.IsUnbroken) :
    ∃ ds, r.rule.run lines = .ok ds ∧ Fixing.Rewrites r.unit 0 lines ds (r.settled lines) := by
  obtain ⟨found, ds, hfound, hreports, hrewrites⟩ :=
    exists_rewrites hunit htab r.allUnits_nil (standFor_zip lines _) hunbroken
  have hlength := LineScan.length_continued r.style lines
  rw [List.map_fst_zip hlength.ge] at hrewrites
  exact ⟨ds, bind_eq_ok_iff.mpr ⟨found, hfound, hreports⟩, hrewrites⟩

end Reports

section Texts

variable {settings : FixSettings} {text : Text}

theorem settles_of_isTabWidth (hr : r.IsLegible) (hunit : 1 ≤ r.unit)
    (htab : Indentation.isTabWidth r.unit = true) (hsettings : settings.indentUnit = r.unit)
    (hreturn : '\r' ∉ text) : r.rule.Settles settings text := by
  obtain ⟨ds, hrun, hrewrites⟩ := exists_run_rewrites hunit htab
    (SourceLines.isUnbroken_of_mem_lines hreturn)
  rw [← hsettings] at hunit htab hrewrites
  have hlines := hrewrites.lines_eq hunit htab hreturn
  refine ⟨ds, hrun, hrewrites.skipped_eq_nil hunit htab, ?_, ?_⟩
  · rw [hlines, map_trim_settled]
  · rw [hlines]
    exact run_settled hr (hsettings ▸ hunit) (hsettings ▸ htab) _

theorem checkFrom_of_allBlank (h : ∀ entry ∈ entries, entry.1.allBlank = true) :
    r.checkFrom index scopes entries = .ok [] := by
  induction entries generalizing index with
  | nil => rfl
  | cons entry rest ih =>
      obtain ⟨hentry, hrest⟩ := List.forall_mem_cons.mp h
      rw [checkFrom_cons_of_blank (Text.trim_eq_nil_iff.mpr hentry), ih hrest]

theorem settles_of_allBlank (hreturn : '\r' ∉ text)
    (h : ∀ line ∈ (SourceLines.ofText text).lines, line.allBlank = true) :
    r.rule.Settles settings text := by
  have hcheck : r.check (SourceLines.ofText text).lines = .ok [] :=
    checkFrom_of_allBlank fun entry hentry => h entry.1 (List.of_mem_zip hentry).1
  have hrun : r.rule.run (SourceLines.ofText text).lines = .ok [] :=
    bind_eq_ok_iff.mpr ⟨[], hcheck, rfl⟩
  have hlines := Fixing.lines_applyFixes_nil settings hreturn
  refine ⟨[], hrun, by rw [Fixing.applyFixes_nil], ?_, ?_⟩
  · rw [hlines]
  · rw [hlines, hrun]

/-- With a unit that tabs cannot be measured in, the first line that is not blank fails. -/
theorem checkFrom_of_tabRange (htab : Indentation.isTabWidth r.unit = false)
    (h : ∃ entry ∈ entries, entry.1.allBlank = false) :
    r.checkFrom index scopes entries = .error .tabRange := by
  induction entries generalizing index with
  | nil => simp at h
  | cons entry rest ih =>
      obtain ⟨line, continued⟩ := entry
      by_cases hline : line.trim = []
      · rw [checkFrom_cons_of_blank hline]
        apply ih
        obtain ⟨entry, hentry, hcode⟩ := h
        rcases List.mem_cons.mp hentry with rfl | hentry
        · rw [Text.trim_eq_nil_iff.mp hline] at hcode
          cases hcode
        · exact ⟨entry, hentry, hcode⟩
      · exact checkFrom_cons_of_tabRange htab hline

theorem run_of_tabRange (htab : Indentation.isTabWidth r.unit = false)
    (h : ∃ line ∈ lines, line.allBlank = false) : r.rule.run lines = .error .tabRange := by
  have hlength := LineScan.length_continued r.style lines
  have hcheck : r.check lines = .error .tabRange := by
    apply checkFrom_of_tabRange htab
    obtain ⟨line, hline, hcode⟩ := h
    rw [← List.map_fst_zip hlength.ge] at hline
    obtain ⟨entry, hentry, rfl⟩ := List.mem_map.mp hline
    exact ⟨entry, hentry, hcode⟩
  rw [rule, Rule.ofFindings]
  simp only [hcheck]
  rfl

end Texts

theorem isLegible_default (unit : Int) : IsLegible { unit } where
  ordinary := show LiteralStyle.IsOrdinary {} by decide
  quotes quote hquote := List.mem_append_left ['`'] hquote
  flatScopes scope hscope quote hquote := by
    have hfree : (['"', '\''].all fun quote => !"namespace".toList.contains quote) = true := by decide
    rw [List.mem_singleton.mp hscope]
    simpa using List.all_eq_true.mp hfree quote hquote

/-- Indentation by scopes settles each text without carriage returns, for every unit that tabs can
be measured in. With a wider one it fails, unless there is nothing to be measured. -/
theorem settles_or_tabRange {text : Text} (hreturn : '\r' ∉ text) {unit : Int} (hunit : 1 ≤ unit) :
    let lines := (SourceLines.ofText text).lines
    (unit < 2 ^ 31 ∨ (∀ line ∈ lines, line.allBlank = true) →
      (rule { unit }).Settles { indentUnit := unit } text) ∧
    (2 ^ 31 ≤ unit → (∃ line ∈ lines, line.allBlank = false) →
      (rule { unit }).run lines = .error .tabRange) := by
  intro lines
  constructor
  · rintro (hlt | hblank)
    · have htab : Indentation.isTabWidth unit = true :=
        Indentation.isTabWidth_iff.mpr ⟨by omega, hlt⟩
      exact settles_of_isTabWidth (isLegible_default unit) hunit htab rfl hreturn
    · exact settles_of_allBlank hreturn hblank
  · intro hwide hcode
    have htab : Indentation.isTabWidth unit = false := Bool.eq_false_iff.mpr fun htab =>
      absurd (Indentation.isTabWidth_iff.mp htab).2 (by omega)
    exact run_of_tabRange htab hcode

def nestedScopes : Text :=
  "namespace a \x7b\n void f() \x7b\n\t\tg(\"b  \n  , c);\n    \x7d\n\x7d".toList

theorem settles_or_tabRange_nestedScopes :
    settled { unit := 4 } (SourceLines.ofText nestedScopes).lines =
        ["namespace a \x7b", "void f() \x7b", "    g(\"b", "  , c);", "\x7d", "\x7d"].map String.toList ∧
      (rule { unit := 4 }).Settles { indentUnit := 4 } nestedScopes ∧
      (rule { unit := 2 ^ 31 }).run (SourceLines.ofText nestedScopes).lines = .error .tabRange := by
  have hreturn : '\r' ∉ nestedScopes := by decide
  have hcode : ∃ line ∈ (SourceLines.ofText nestedScopes).lines, line.allBlank = false := by
    decide +kernel
  obtain ⟨hsettles, -⟩ := @settles_or_tabRange nestedScopes hreturn 4 (by decide)
  obtain ⟨-, hfails⟩ := @settles_or_tabRange nestedScopes hreturn (2 ^ 31) (by decide)
  refine ⟨by decide +kernel, ?_, ?_⟩
  · exact hsettles (Or.inl (by decide))
  · exact hfails (by decide) hcode

/-- A unit that tabs cannot be measured in settles nothing that has to be measured. -/
theorem not_settles_wideUnit :
    ¬∀ (text : Text) (unit : Int), '\r' ∉ text → 1 ≤ unit →
      (rule { unit }).Settles { indentUnit := unit } text := by
  intro hall
  obtain ⟨ds, hrun, -⟩ := hall ['a'] (2 ^ 31) (by decide) (by decide)
  have hfails : (rule { unit := 2 ^ 31 }).run (SourceLines.ofText ['a']).lines =
      .error .tabRange := run_of_tabRange (by decide) ⟨['a'], by decide, by decide⟩
  rw [hfails] at hrun
  cases hrun

end IndentationScope

end LineLint
