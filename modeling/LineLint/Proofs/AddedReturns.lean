import LineLint.Proofs.IgnoredCodes
import LineLint.Proofs.LineRoundTrip
import LineLint.Proofs.ReturnFreeLayout
import LineLint.Proofs.ReturnFreeMarkup
import LineLint.Proofs.ReturnFreeStatements
import LineLint.Proofs.UnbrokenLines
import LineLint.Registry
import LineLint.Run

/-!
# Carriage returns added to a text

A text without carriage returns, and the same text with one put before every newline, are read as
the same lines. No fix of a built-in rule brings a carriage return into lines that have none:
besides the lines, the fixes use words and marks that are given with the rules. So the built-in
analyzers find the same in both texts, and the lines that a batch of fixes leaves are written with
the newlines of the text that they came from.
-/

namespace LineLint

theorem CSharp.addsNoReturn_rules : ∀ r ∈ rules, r.AddsNoReturn := by
  simp only [rules, List.forall_mem_cons]
  exact ⟨OperatorSpacing.addsNoReturn _, Terminator.addsNoReturn (by decide),
    ExtraTerminator.addsNoReturn _, ControlStructure.addsNoReturn (by decide),
    IndentationStep.addsNoReturn _, EmptyLine.addsNoReturn, NamingConvention.addsNoReturn _,
    VarUsage.addsNoReturn _, BraceOwnLine.addsNoReturn _, NullComparison.nullRule_addsNoReturn _,
    KeywordCollision.addsNoReturn (by decide), RedundantEquals.addsNoReturn _,
    TryHandler.addsNoReturn _, SwitchDefault.addsNoReturn _, DuplicateLines.addsNoReturn _,
    ResourceLifecycle.addsNoReturn (by decide), List.forall_mem_nil _⟩

theorem Html.addsNoReturn_rules : ∀ r ∈ rules, r.AddsNoReturn := by
  simp only [rules, List.forall_mem_cons]
  exact ⟨EmptyLine.addsNoReturn, DocumentStructure.addsNoReturn, TagNesting.addsNoReturn,
    TagCase.addsNoReturn, AttributeQuotes.addsNoReturn, IndentationStep.addsNoReturn _,
    EmptyElement.addsNoReturn, ImageDimensions.addsNoReturn,
    TagSpelling.addsNoReturn (by decide +kernel), TableStructure.addsNoReturn,
    RequiredAttribute.addsNoReturn, List.forall_mem_nil _⟩

theorem Python.addsNoReturn_rules : ∀ r ∈ rules, r.AddsNoReturn := by
  simp only [rules, List.forall_mem_cons]
  exact ⟨OperatorSpacing.addsNoReturn _, CommaSpacing.addsNoReturn _,
    NullComparison.noneRule_addsNoReturn _, IndentationStep.addsNoReturn _,
    EmptyLine.addsNoReturn, KeywordCollision.addsNoReturn (by decide),
    MissingColon.addsNoReturn _, IndentedBlock.addsNoReturn _ _, MissingCondition.addsNoReturn _,
    DuplicateLines.addsNoReturn _, EmptyIf.addsNoReturn _ _, TryHandler.addsNoReturn _,
    ImportLayout.placementRule_addsNoReturn _, ImportLayout.singleRule_addsNoReturn _,
    NamingConvention.addsNoReturn _, ResourceLifecycle.addsNoReturn (by decide),
    List.forall_mem_nil _⟩

theorem Java.addsNoReturn_rules : ∀ r ∈ rules, r.AddsNoReturn := by
  simp only [rules, List.forall_mem_cons]
  exact ⟨Terminator.addsNoReturn (by decide), ExtraTerminator.addsNoReturn _,
    OperatorSpacing.addsNoReturn _, IndentationStep.addsNoReturn _, EmptyLine.addsNoReturn,
    BraceOwnLine.addsNoReturn _, KeywordCollision.addsNoReturn (by decide),
    ControlStructure.addsNoReturn (by decide), TryHandler.addsNoReturn _,
    SwitchDefault.addsNoReturn _, NamingConvention.addsNoReturn _, DuplicateLines.addsNoReturn _,
    ResourceLifecycle.addsNoReturn (by decide), List.forall_mem_nil _⟩

theorem Cpp.addsNoReturn_rules : ∀ r ∈ rules, r.AddsNoReturn := by
  simp only [rules, List.forall_mem_cons]
  exact ⟨Terminator.addsNoReturn (by decide), ExtraTerminator.addsNoReturn _,
    CommaSpacing.addsNoReturn _, OperatorSpacing.addsNoReturn _, IndentationScope.addsNoReturn _,
    EmptyLine.addsNoReturn, BraceOwnLine.addsNoReturn _,
    KeywordCollision.addsNoReturn (by decide), ControlStructure.addsNoReturn (by decide),
    TryHandler.addsNoReturn _, SwitchDefault.addsNoReturn _, DuplicateLines.addsNoReturn _,
    ResourceLifecycle.addsNoReturn (by decide), List.forall_mem_nil _⟩

theorem JavaScript.addsNoReturn_rules : ∀ r ∈ rules, r.AddsNoReturn := by
  simp only [rules, List.forall_mem_cons]
  exact ⟨VarDeclaration.addsNoReturn _, EmptyLine.addsNoReturn,
    Terminator.addsNoReturn (by decide), StrictEquality.addsNoReturn _,
    OperatorSpacing.addsNoReturn _, IndentationStep.addsNoReturn _, BraceSameLine.addsNoReturn _,
    KeywordCollision.addsNoReturn (by decide), ControlStructure.addsNoReturn (by decide),
    TryHandler.addsNoReturn _, SwitchDefault.addsNoReturn _, DuplicateLines.addsNoReturn _,
    NamingConvention.addsNoReturn _, StrictMode.addsNoReturn _, List.forall_mem_nil _⟩

namespace Registry

theorem addsNoReturn_of_mem_builtin {a : Analyzer} (ha : a ∈ builtin.analyzers) :
    ∀ r ∈ a.rules, r.AddsNoReturn := by
  simp only [builtin, List.mem_cons, List.not_mem_nil, or_false] at ha
  rcases ha with rfl | rfl | rfl | rfl | rfl | rfl
  · exact CSharp.addsNoReturn_rules
  · exact Html.addsNoReturn_rules
  · exact Python.addsNoReturn_rules
  · exact Java.addsNoReturn_rules
  · exact Cpp.addsNoReturn_rules
  · exact JavaScript.addsNoReturn_rules

/-- The fixes that a built-in analyzer finds for lines without a carriage return have none. -/
theorem return_not_mem_newText {a : Analyzer} (ha : a ∈ builtin.analyzers) (options : LintOptions)
    {text : Text} (hlines : ReturnFree (SourceLines.ofText text).lines) :
    ∀ d ∈ a.analyze options text, '\r' ∉ d.newText := by
  intro d hd
  obtain ⟨r, hr, hrun⟩ := Rule.mem_runAll.mp hd
  exact addsNoReturn_of_mem_builtin ha r (List.mem_of_mem_filter hr) _ hlines d hrun

end Registry

namespace Text

def addReturns (t : Text) : Text := t.flatMap fun c => if c = '\n' then ['\r', '\n'] else [c]

@[simp] theorem addReturns_append (s t : Text) :
    (s ++ t).addReturns = s.addReturns ++ t.addReturns :=
  List.flatMap_append

theorem addReturns_cons_newline (t : Text) :
    addReturns ('\n' :: t) = '\r' :: '\n' :: t.addReturns :=
  rfl

theorem addReturns_cons {c : Char} (hc : c ≠ '\n') (t : Text) :
    addReturns (c :: t) = c :: t.addReturns := by
  simp [addReturns, hc]

theorem addReturns_eq_self {t : Text} (h : '\n' ∉ t) : t.addReturns = t := by
  induction t with
  | nil => rfl
  | cons c t ih =>
      obtain ⟨hc, ht⟩ := List.ne_and_not_mem_of_not_mem_cons h
      rw [addReturns_cons hc.symm, ih ht]

theorem addReturns_closed {closed : List Text} (h : ∀ part ∈ closed, '\n' ∉ part) :
    addReturns (closed.flatMap (· ++ ['\n'])) = closed.flatMap (· ++ ['\r', '\n']) := by
  induction closed with
  | nil => rfl
  | cons part closed ih =>
      obtain ⟨hpart, hclosed⟩ := List.forall_mem_cons.mp h
      rw [List.flatMap_cons, List.flatMap_cons, addReturns_append, addReturns_append,
        addReturns_eq_self hpart, ih hclosed]
      rfl

theorem filter_addReturns {t : Text} (h : '\r' ∉ t) : t.addReturns.filter (· != '\r') = t := by
  induction t with
  | nil => rfl
  | cons c t ih =>
      obtain ⟨hc, ht⟩ := List.ne_and_not_mem_of_not_mem_cons h
      by_cases hnewline : c = '\n'
      · rw [hnewline, addReturns_cons_newline, List.filter_cons_of_neg (by simp),
          List.filter_cons_of_pos (by decide), ih ht]
      · rw [addReturns_cons hnewline, List.filter_cons_of_pos (by simpa using hc.symm), ih ht]

theorem addReturns_inj {s t : Text} (hs : '\r' ∉ s) (ht : '\r' ∉ t) :
    s.addReturns = t.addReturns ↔ s = t := by
  refine ⟨fun h => ?_, congrArg addReturns⟩
  rw [← filter_addReturns hs, h, filter_addReturns ht]

theorem splitOn_addReturns {t last : Text} {closed : List Text}
    (h : splitOn '\n' t = closed ++ [last]) :
    splitOn '\n' t.addReturns = closed.map (· ++ ['\r']) ++ [last] := by
  have hclosed : ∀ part ∈ closed, '\n' ∉ part := fun part => not_mem_of_mem_closed h
  have hlast : '\n' ∉ last := not_mem_last h
  have hmarked : ∀ part ∈ closed.map (· ++ ['\r']), '\n' ∉ part := by
    rw [List.forall_mem_map]
    intro part hpart
    simp [hclosed part hpart]
  rw [← flatMap_append_of_splitOn h, addReturns_append, addReturns_closed hclosed,
    addReturns_eq_self hlast, ← splitOn_flatMap_append hmarked hlast,
    ← SourceLines.flatMap_append_mark]
  rfl

end Text

namespace SourceLines

open Text

variable {t : Text}

theorem lines_ofText_addReturns (h : '\r' ∉ t) :
    (ofText t.addReturns).lines = (ofText t).lines := by
  obtain ⟨closed, last, hsplit⟩ := exists_splitOn_eq '\n' t
  have hclosed : (closed.map (· ++ ['\r'])).map dropReturn = closed.map dropReturn := by
    rw [List.map_map, List.map_inj_left]
    intro part hpart
    have hmem : part ∈ splitOn '\n' t := hsplit ▸ List.mem_append_left [last] hpart
    have hend : part.getLast? ≠ some '\r' := fun hget =>
      (isUnbroken_of_mem_splitOn h hmem).carriageReturn (List.mem_of_getLast? hget)
    exact (dropReturn_append_return part).trans (dropReturn_eq_self hend).symm
  rw [lines_ofText (splitOn_addReturns hsplit), lines_ofText hsplit, hclosed]

theorem trailingNewline_ofText_addReturns (t : Text) :
    (ofText t.addReturns).trailingNewline = (ofText t).trailingNewline := by
  obtain ⟨closed, last, hsplit⟩ := exists_splitOn_eq '\n' t
  rw [Bool.eq_iff_iff, trailingNewline_ofText (splitOn_addReturns hsplit),
    trailingNewline_ofText hsplit, ne_eq, List.map_eq_nil_iff]

theorem newline_ofText_addReturns (h : '\n' ∈ t) :
    (ofText t.addReturns).newline = ['\r', '\n'] := by
  obtain ⟨before, after, rfl⟩ := List.append_of_mem h
  have hpair : includes (addReturns (before ++ '\n' :: after)) ['\r', '\n'] = true :=
    includes_pair_iff.mpr ⟨addReturns before ++ ['\r'], addReturns after,
      by simp [addReturns_cons_newline], by simp⟩
  rw [newline_ofText, writtenReturn, if_pos hpair]
  rfl

theorem newline_ofText_of_not_mem (h : '\r' ∉ t) : (ofText t).newline = ['\n'] := by
  have hpair : ¬ includes t ['\r', '\n'] = true := by
    rw [includes_iff]
    exact fun hpart => h (hpart.subset List.mem_cons_self)
  rw [newline_ofText, writtenReturn, if_neg hpair]
  rfl

/-- Lines that are written in the place of those of a text get its carriage returns. -/
theorem renderWith_addReturns (hnewline : '\n' ∈ t) (hreturn : '\r' ∉ t) {lines : List Text}
    (hlines : ∀ line ∈ lines, '\n' ∉ line) :
    (ofText t.addReturns).renderWith lines = ((ofText t).renderWith lines).addReturns := by
  have hsame := trailingNewline_ofText_addReturns t
  cases htrailing : (ofText t).trailingNewline with
  | true =>
      rw [renderWith_of_trailing (hsame.trans htrailing), renderWith_of_trailing htrailing,
        newline_ofText_addReturns hnewline, newline_ofText_of_not_mem hreturn,
        addReturns_closed hlines]
  | false =>
      cases lines using List.reverseRecOn with
      | nil => rfl
      | append_singleton lines line =>
          obtain ⟨hinit, hline⟩ := List.forall_mem_append.mp hlines
          rw [renderWith_snoc (hsame.trans htrailing), renderWith_snoc htrailing,
            newline_ofText_addReturns hnewline, newline_ofText_of_not_mem hreturn,
            addReturns_append, addReturns_closed hinit,
            addReturns_eq_self (hline line (List.mem_singleton_self line))]

theorem return_not_mem_renderWith (hreturn : '\r' ∉ t) {lines : List Text}
    (hlines : ReturnFree lines) : '\r' ∉ (ofText t).renderWith lines := by
  have hclosed : ∀ init : List Text, ReturnFree init → '\r' ∉ init.flatMap (· ++ ['\n']) := by
    intro init hinit hc
    obtain ⟨line, hline, hc⟩ := List.mem_flatMap.mp hc
    exact hinit line hline (by simpa using hc)
  cases htrailing : (ofText t).trailingNewline with
  | true =>
      rw [renderWith_of_trailing htrailing, newline_ofText_of_not_mem hreturn]
      exact hclosed lines hlines
  | false =>
      cases lines using List.reverseRecOn with
      | nil => exact List.not_mem_nil
      | append_singleton lines line =>
          obtain ⟨hinit, hline⟩ := List.forall_mem_append.mp hlines
          rw [renderWith_snoc htrailing, newline_ofText_of_not_mem hreturn]
          exact List.not_mem_append (hclosed lines hinit) (hline line (List.mem_singleton_self line))

end SourceLines

namespace Fixing

/-- A batch of fixes without carriage returns does to a text with added carriage returns what it
does to the text without them. -/
theorem applyFixes_addReturns (settings : FixSettings) {text : Text} {ds : List Diagnostic}
    (hnewline : '\n' ∈ text) (hreturn : '\r' ∉ text) (hfixes : ∀ d ∈ ds, '\r' ∉ d.newText) :
    applyFixes settings text.addReturns ds =
        { applyFixes settings text ds with text := (applyFixes settings text ds).text.addReturns } ∧
      '\r' ∉ (applyFixes settings text ds).text := by
  have hunbroken := isUnbroken_of_mem_batch settings
    (SourceLines.isUnbroken_of_mem_lines hreturn) hfixes
  simp only [applyFixes_eq_batch, SourceLines.lines_ofText_addReturns hreturn]
  rw [SourceLines.renderWith_addReturns hnewline hreturn fun line hline =>
    (hunbroken line hline).newline]
  exact ⟨rfl, SourceLines.return_not_mem_renderWith hreturn fun line hline =>
    (hunbroken line hline).carriageReturn⟩

end Fixing

theorem Analyzer.analyze_addReturns (a : Analyzer) (options : LintOptions) {text : Text}
    (h : '\r' ∉ text) : a.analyze options text.addReturns = a.analyze options text := by
  simp only [Analyzer.analyze, Analyzer.lint, SourceLines.lines_ofText_addReturns h]

namespace Run

/-- A built-in analyzer finds the same in a text with added carriage returns as in the text without
them, and a format run comes to the same, with the carriage returns added to the text that it
writes. -/
theorem formatWith_addReturns {a : Analyzer} (ha : a ∈ Registry.builtin.analyzers)
    (options : LintOptions) {text : Text} (hnewline : '\n' ∈ text) (hreturn : '\r' ∉ text) :
    a.analyze options text.addReturns = a.analyze options text ∧
      formatWith a options text.addReturns none =
        { formatWith a options text none with
          text := (formatWith a options text none).text.addReturns } := by
  have hanalyze := a.analyze_addReturns options hreturn
  have hfixes : ∀ d ∈ a.analyze options text, '\r' ∉ d.newText :=
    Registry.return_not_mem_newText ha options fun line hline =>
      (SourceLines.isUnbroken_of_mem_lines hreturn line hline).carriageReturn
  obtain ⟨hresult, hfree⟩ :=
    Fixing.applyFixes_addReturns a.profile.fixSettings hnewline hreturn hfixes
  refine ⟨hanalyze, ?_⟩
  have hchanged : ((applyFixes a.profile.fixSettings text (a.analyze options text)).text.addReturns
      != text.addReturns) =
        ((applyFixes a.profile.fixSettings text (a.analyze options text)).text != text) := by
    rw [Bool.eq_iff_iff, bne_iff_ne, bne_iff_ne, ne_eq, ne_eq, Text.addReturns_inj hfree hreturn]
  simp only [formatWith, Option.getD_none, hanalyze, hresult, hchanged,
    a.analyze_addReturns options hfree]

/-- The empty line goes and the space before the name too, and the newline that stays is written
with a carriage return. -/
theorem formatWith_addReturns_indentedName :
    Registry.python ∈ Registry.builtin.analyzers ∧
      Registry.indentedName.addReturns = " a\r\n\r\n".toList ∧
      (Registry.python.analyze {} Registry.indentedName.addReturns).map (·.code) =
        ["LINT_FORMAT_INDENTATION", "LINT_FORMAT_EMPTY_LINE"] ∧
      (formatWith Registry.python {} Registry.indentedName.addReturns none).text =
        "a\r\n".toList := by
  have hmem : Registry.python ∈ Registry.builtin.analyzers := by simp [Registry.builtin]
  have htext : (formatWith Registry.python {} Registry.indentedName none).text = "a\n".toList := by
    simp only [formatWith, Option.getD_none, Registry.analyze_indentedName, Fixing.applyFixes_text]
    decide +kernel
  have hnewline : '\n' ∈ Registry.indentedName := by decide
  have hreturn : '\r' ∉ Registry.indentedName := by decide
  obtain ⟨hanalyze, hformat⟩ := formatWith_addReturns hmem {} hnewline hreturn
  refine ⟨hmem, by decide, ?_, ?_⟩
  · rw [hanalyze]
    exact Registry.codes_indentedName
  · rw [hformat, htext]
    decide

end Run

end LineLint
