import LineLint.BracePlacement
import LineLint.JavaScriptLanguage
import LineLint.Proofs.AppendedBrace
import LineLint.Proofs.Computation
import LineLint.Proofs.FreshFormat
import LineLint.Proofs.ScannedLines
import LineLint.Proofs.SoundRegistry
import LineLint.Proofs.SoundRules
import LineLint.Proofs.SpacingReports

/-!
# Braces that move up to their headers

A lone brace and the header above it make a pair of findings: one appends the brace to the header,
and one deletes the line of the brace. The header is neither blank nor a lone brace itself. The two
halves of a pair lie on different lines and are carried out independently. The line of the brace is
always deleted. The brace is appended to the header unless one of its hunks clashes with what is
accepted of the fixes before it, and then it is lost.
-/

namespace LineLint

namespace LiteralStyle

theorem scanFrom_of_plain {style : LiteralStyle} {line : Text}
    (hquotes : ∀ c ∈ line, style.quotes.contains c = false)
    (hcomment : ∀ rest, rest <:+ line → style.commentStarts rest = true → rest = [])
    (position : Nat) : style.scanFrom position line = ⟨[], none⟩ := by
  induction line generalizing position with
  | nil => rw [scanFrom]
  | cons c rest ih =>
      have hstart : style.commentStarts (c :: rest) = false := by
        by_contra hcontra
        cases hcomment _ List.suffix_rfl (by simpa using hcontra)
      rw [scanFrom, hstart, hquotes c List.mem_cons_self]
      simp only [Bool.false_eq_true, if_false, Bool.not_false, if_true]
      refine ih (fun d hd => hquotes d (List.mem_cons_of_mem _ hd)) (fun t ht => ?_) _
      exact hcomment t (ht.trans (List.suffix_cons c rest))

theorem codeMask_of_plain {style : LiteralStyle} {line : Text}
    (h : style.scan line = ⟨[], none⟩) : style.codeMask line = line.trimRight := by
  have hsplit : style.splitComment line = (line, []) := by
    simp only [splitComment, h]
  have hmask : style.maskLiterals line = line := by
    simp only [maskLiterals, literals, h, List.any_nil, Bool.false_eq_true, if_false]
    exact List.ext_getElem (by simp) (by simp)
  rw [codeMask, hsplit, hmask]

end LiteralStyle

namespace BraceSameLine

/-- A line that holds nothing but an opening brace, and the header above it that can take the brace.
-/
structure IsPair (style : LiteralStyle) (lines : List Text) (above index : Nat) : Prop where
  brace : (lines.getD index []).trim = ['{']
  header : LineScan.lastCode? lines index = some above
  takesBrace : takesBrace style (lines.getD above []) = true

def reported (lines : List Text) (index : Nat) (new : Text) : Diagnostic where
  code := Spec.braceSameLine.code
  message := "Opening brace should be on the same line as its statement".toList
  line := index + 1
  category := Spec.braceSameLine.category
  suggestion := "Move the opening brace to the end of the previous line".toList
  snippet := lines.getD index []
  replacement := some new

def appending (lines : List Text) (above : Nat) : Diagnostic :=
  reported lines above ((lines.getD above []).trimRight ++ [' ', '{'])

def deleting (lines : List Text) (index : Nat) : Diagnostic := reported lines index []

section Pair

variable {style : LiteralStyle} {lines : List Text} {above index : Nat}

theorem getElem?_of_getD_ne_nil {i : Nat} (h : lines.getD i [] ≠ []) :
    lines[i]? = some (lines.getD i []) := by
  cases hline : lines[i]? with
  | none => exact absurd (by simp [hline]) h
  | some line => simp [hline]

theorem IsPair.getElem?_index (h : IsPair style lines above index) :
    lines[index]? = some (lines.getD index []) := by
  refine getElem?_of_getD_ne_nil fun hnil => ?_
  have hbrace := h.brace
  rw [hnil] at hbrace
  cases hbrace

theorem IsPair.header_line (h : IsPair style lines above index) :
    lines[above]? = some (lines.getD above []) ∧ (lines.getD above []).allBlank = false := by
  obtain ⟨-, line, hline, hcode⟩ := LineScan.lastCode?_eq_some h.header
  have hget : lines.getD above [] = line := by simp [hline]
  rw [hget]
  exact ⟨hline, hcode⟩

theorem report_eq_ok {i : Nat} (h : lines[i]? = some (lines.getD i [])) (new : Text) :
    Spec.braceSameLine.report lines { index := i, replacement := some new } =
      .ok (reported lines i new) := by
  simp only [Spec.report, h]
  rfl

theorem mem_check_iff {f : Finding} :
    f ∈ check style lines ↔ ∃ above index, IsPair style lines above index ∧
      (f = { index := above, replacement := (lines.getD above []).trimRight ++ [' ', '{'] } ∨
        f = { index := index, replacement := some [] }) := by
  rw [check, Rule.mem_eachLine]
  constructor
  · rintro ⟨index, line, hline, hf⟩
    have hget : lines.getD index [] = line := by simp [hline]
    split_ifs at hf with hbrace
    · cases hf
    · cases habove : LineScan.lastCode? lines index with
      | none =>
          rw [habove] at hf
          cases hf
      | some above =>
          simp only [habove] at hf
          split_ifs at hf with htakes
          · cases hf
          · refine ⟨above, index, ⟨?_, habove, by simpa using htakes⟩, by simpa using hf⟩
            rw [hget]
            simpa using hbrace
  · rintro ⟨above, index, hpair, hf⟩
    refine ⟨index, _, hpair.getElem?_index, ?_⟩
    have hbrace : ((lines.getD index []).trim != ['{']) = false := by
      rw [hpair.brace]
      rfl
    simp only [hbrace, Bool.false_eq_true, if_false, hpair.header, hpair.takesBrace, Bool.not_true]
    simpa using hf

/-- The rule reports the halves of all pairs, and nothing else. -/
theorem mem_runGuarded_iff {d : Diagnostic} :
    d ∈ Rule.runGuarded lines (rule style) ↔ ∃ above index, IsPair style lines above index ∧
      (d = appending lines above ∨ d = deleting lines index) := by
  have hreport (f : Finding) (hf : f ∈ check style lines) :
      Spec.braceSameLine.report lines f = .ok (reported lines f.index (f.replacement.getD [])) := by
    obtain ⟨above, index, hpair, rfl | rfl⟩ := mem_check_iff.mp hf
    · exact report_eq_ok hpair.header_line.1 _
    · exact report_eq_ok hpair.getElem?_index _
  have hrun : Rule.runGuarded lines (rule style) =
      (check style lines).map fun f => reported lines f.index (f.replacement.getD []) := by
    have hok : (rule style).run lines = .ok ((check style lines).map fun f =>
        reported lines f.index (f.replacement.getD [])) := mapM_eq_ok hreport
    rw [Rule.runGuarded, hok]
  rw [hrun, List.mem_map]
  constructor
  · rintro ⟨f, hf, rfl⟩
    obtain ⟨above, index, hpair, rfl | rfl⟩ := mem_check_iff.mp hf
    · exact ⟨above, index, hpair, Or.inl rfl⟩
    · exact ⟨above, index, hpair, Or.inr rfl⟩
  · rintro ⟨above, index, hpair, rfl | rfl⟩
    · exact ⟨_, mem_check_iff.mpr ⟨above, index, hpair, Or.inl rfl⟩, rfl⟩
    · exact ⟨_, mem_check_iff.mpr ⟨above, index, hpair, Or.inr rfl⟩, rfl⟩

end Pair

theorem trim_ne_of_takesBrace {line : Text}
    (h : takesBrace JavaScript.profile.style line = true) : line.trim ≠ ['{'] := by
  intro hbrace
  have hchars : ∀ c ∈ line, isBlank c = true ∨ c = '{' := by
    intro c hc
    have := Text.isBlank_or_mem_trim hc
    rwa [hbrace, List.mem_singleton] at this
  have hscan : JavaScript.profile.style.scan line = ⟨[], none⟩ := by
    refine LiteralStyle.scanFrom_of_plain (fun c hc => ?_) (fun rest hrest hstart => ?_) 0
    · by_contra hquote
      have hquotes : ∀ q ∈ JavaScript.profile.style.quotes, isBlank q = false ∧ q ≠ '{' := by
        intro q hq
        simp only [JavaScript.profile, List.mem_cons, List.not_mem_nil, or_false] at hq
        rcases hq with rfl | rfl | rfl
        all_goals exact ⟨by decide, by decide⟩
      obtain ⟨hblank, hne⟩ := hquotes c (by simpa using hquote)
      rcases hchars c hc with h | h
      · rw [hblank] at h
        cases h
      · exact hne h
    · cases rest with
      | nil => rfl
      | cons c rest =>
          have hmark : ['/', '/'].isPrefixOf (c :: rest) = true := hstart
          obtain ⟨rfl, -⟩ := List.cons_prefix_cons.mp (List.isPrefixOf_iff_prefix.mp hmark)
          rcases hchars '/' (hrest.subset List.mem_cons_self) with h | h
          · exact absurd h (by decide)
          · exact absurd h (by decide)
  have hlast : (JavaScript.profile.style.codeMask line).getLast? = some '{' := by
    rw [LiteralStyle.codeMask_of_plain hscan, Text.getLast?_trimRight_eq, hbrace]
    rfl
  simp [takesBrace, hlast] at h

end BraceSameLine

namespace JavaScript

def analyzer : Analyzer := ⟨profile, rules⟩

def spacing : OperatorSpacing where
  table := operators
  style := profile.style
  skipped := [['#', '!']]

theorem analyzer_mem_builtin : analyzer ∈ Registry.builtin.analyzers := by
  simp [Registry.builtin, analyzer]

theorem moves_analyze (options : LintOptions) (text : Text) :
    Fixing.moves (analyzer.analyze options text) = [] :=
  Registry.moves_analyze_eq_nil analyzer_mem_builtin options text (by decide)

/-- What a lint of the language deletes is a spare line of the text. -/
theorem isSpare_of_mem_analyze {options : LintOptions} {text : Text} {d : Diagnostic}
    (hd : d ∈ analyzer.analyze options text) (hdel : d.isDeletion = true) {i : Nat}
    (hi : d.line - 1 = i) {line : Text} (hline : (SourceLines.ofText text).lines[i]? = some line) :
    IsSpare line := by
  obtain ⟨r, hr, hrun⟩ := Rule.mem_runAll.mp hd
  have hrule : r ∈ rules := List.mem_of_mem_filter hr
  obtain ⟨-, j, hj, hquoted⟩ := Registry.mem_analyze_builtin analyzer_mem_builtin options text hd
  obtain rfl : j = i := by omega
  obtain rfl := Option.some.inj (hquoted.symm.trans hline)
  exact (isSound_rules r hrule).deletesSpare _ d hrun hdel

def fixesOfLine (options : LintOptions) (text : Text) (i : Nat) : List Diagnostic :=
  ofLine (fixable (analyzer.analyze options text)) i

theorem mem_applied_iff {options : LintOptions} {text : Text} {d : Diagnostic} {i : Nat}
    (hi : d.line - 1 = i) :
    d ∈ (Run.formatWith analyzer options text none).applied ↔
      ∃ line, (SourceLines.ofText text).lines[i]? = some line ∧
        d ∈ Fixing.carriedOut line (fixesOfLine options text i) :=
  (Registry.isUnhindered_analyze analyzer_mem_builtin options text).mem_applied_iff_of_no_moves
    (moves_analyze options text) hi

end JavaScript

namespace BraceSameLine

open JavaScript

def headerOf (text : Text) (above : Nat) : Text := (SourceLines.ofText text).lines.getD above []

/-- The fixes of the header that come before the one that appends the brace. -/
def earlierFixes (options : LintOptions) (text : Text) (above : Nat) : List Diagnostic :=
  (fixesOfLine options text above).takeWhile
    (· != appending (SourceLines.ofText text).lines above)

section Pair

variable {options : LintOptions} {text : Text} {above index : Nat}
  (hactive : options.ignore.contains Spec.braceSameLine.code.toList = false)
  (hpair : IsPair profile.style (SourceLines.ofText text).lines above index)

include hactive in
theorem mem_analyze {d : Diagnostic}
    (hd : d ∈ Rule.runGuarded (SourceLines.ofText text).lines (rule profile.style)) :
    d ∈ analyzer.analyze options text := by
  have hrule : rule profile.style ∈ rules := by simp [rules]
  refine Rule.mem_runAll.mpr ⟨rule profile.style, List.mem_filter.mpr ⟨hrule, ?_⟩, hd⟩
  have hcode : (rule profile.style).code = Spec.braceSameLine.code := rfl
  rw [hcode, hactive]
  rfl

include hactive hpair

theorem appending_mem_fixesOfLine :
    appending (SourceLines.ofText text).lines above ∈ fixesOfLine options text above := by
  refine mem_ofLine.mpr ⟨List.mem_filter.mpr ⟨mem_analyze hactive ?_, rfl⟩, by
    simp [appending, reported]⟩
  exact mem_runGuarded_iff.mpr ⟨above, index, hpair, Or.inl rfl⟩

theorem deleting_mem_fixesOfLine :
    deleting (SourceLines.ofText text).lines index ∈ fixesOfLine options text index := by
  refine mem_ofLine.mpr ⟨List.mem_filter.mpr ⟨mem_analyze hactive ?_, rfl⟩, by
    simp [deleting, reported]⟩
  exact mem_runGuarded_iff.mpr ⟨above, index, hpair, Or.inr rfl⟩

theorem deleting_mem_applied :
    deleting (SourceLines.ofText text).lines index ∈
      (Run.formatWith analyzer options text none).applied := by
  have hmem := deleting_mem_fixesOfLine hactive hpair
  have hdel : (deleting (SourceLines.ofText text).lines index).isDeletion = true := rfl
  refine (mem_applied_iff (by simp [deleting, reported])).mpr ⟨_, hpair.getElem?_index, ?_⟩
  rw [Fixing.carriedOut, if_pos (List.any_eq_true.mpr ⟨_, hmem, hdel⟩)]
  exact List.mem_filter.mpr ⟨hmem, hdel⟩

omit hactive in
theorem no_deletion_of_header : (fixesOfLine options text above).any (·.isDeletion) = false := by
  obtain ⟨hline, hcode⟩ := hpair.header_line
  by_contra hany
  obtain ⟨d, hd, hdel⟩ := List.any_eq_true.mp (by simpa using hany)
  obtain ⟨hfix, hi⟩ := mem_ofLine.mp hd
  rcases isSpare_of_mem_analyze (List.mem_of_mem_filter hfix) hdel hi hline with hblank | hbrace
  · rw [hcode] at hblank
    cases hblank
  · exact trim_ne_of_takesBrace hpair.takesBrace hbrace

omit hactive in
theorem allBlank_headerOf : (headerOf text above).allBlank = false :=
  hpair.header_line.2

theorem appending_mem_applied_iff_clashes :
    appending (SourceLines.ofText text).lines above ∈
        (Run.formatWith analyzer options text none).applied ↔
      (Composition.ofRevisions (headerOf text above).dropIndentation
        ((earlierFixes options text above).map (·.newText))).clashes
          (headerOf text above).dropIndentation
          ((headerOf text above).trimRight ++ [' ', '{']) = false := by
  obtain ⟨hline, -⟩ := hpair.header_line
  have hcarried : Fixing.carriedOut (headerOf text above) (fixesOfLine options text above) =
      Fixing.composable (headerOf text above) (fixesOfLine options text above) :=
    if_neg (by simp [no_deletion_of_header hpair])
  refine Iff.trans (mem_applied_iff (i := above) (by simp [appending, reported])) (Iff.trans ?_
    (Fixing.mem_composable_iff (appending_mem_fixesOfLine hactive hpair)))
  rw [← hcarried]
  constructor
  · rintro ⟨line, hget, hd⟩
    obtain rfl := Option.some.inj (hline.symm.trans hget)
    exact hd
  · intro hd
    exact ⟨_, hline, hd⟩

/-- Below a header without blanks at its end, or with a single space there, both halves of a pair
are carried out. -/
theorem pair_applied_of_trailingBlanks
    (hend : (headerOf text above).dropIndentation.trailingBlanks = [] ∨
      (headerOf text above).dropIndentation.trailingBlanks = [' ']) :
    deleting (SourceLines.ofText text).lines index ∈
        (Run.formatWith analyzer options text none).applied ∧
      appending (SourceLines.ofText text).lines above ∈
        (Run.formatWith analyzer options text none).applied := by
  refine ⟨deleting_mem_applied hactive hpair, ?_⟩
  rw [appending_mem_applied_iff_clashes hactive hpair]
  exact Composition.clashes_appended_eq_false (allBlank_headerOf hpair) hend _

end Pair

/-- The line of a brace is always deleted. The brace is appended to the header exactly if none of
its hunks, which lie in the blanks at the end of the header, clashes with a hunk that is accepted
from the fixes before it. -/
theorem pair_applied_iff {options : LintOptions} {text : Text} {above index : Nat}
    (hactive : options.ignore.contains Spec.braceSameLine.code.toList = false)
    (hpair : IsPair profile.style (SourceLines.ofText text).lines above index) :
    deleting (SourceLines.ofText text).lines index ∈
        (Run.formatWith analyzer options text none).applied ∧
      (appending (SourceLines.ofText text).lines above ∈
          (Run.formatWith analyzer options text none).applied ↔
        let base := (headerOf text above).dropIndentation
        ∀ h ∈ Hunk.ofAppendedBrace base.trimRight.length base.trailingBlanks,
          ∀ k ∈ (Composition.ofRevisions base
            ((earlierFixes options text above).map (·.newText))).accepted,
            h.conflicts k = false) := by
  refine ⟨deleting_mem_applied hactive hpair, ?_⟩
  rw [appending_mem_applied_iff_clashes hactive hpair, Composition.clashes_eq_false_iff,
    Hunk.between_appended_line (allBlank_headerOf hpair)]

theorem eq_appending_of_line_eq {lines : List Text} {above index : Nat}
    (hpair : IsPair profile.style lines above index) {d : Diagnostic}
    (hd : d ∈ Rule.runGuarded lines (rule profile.style)) (hline : d.line - 1 = above) :
    d = appending lines above := by
  obtain ⟨above', index', hpair', rfl | rfl⟩ := mem_runGuarded_iff.mp hd
  · obtain rfl : above' = above := Int.ofNat_inj.mp (by simpa [appending, reported] using hline)
    rfl
  · obtain rfl : index' = above := Int.ofNat_inj.mp (by simpa [deleting, reported] using hline)
    exact absurd hpair'.brace (trim_ne_of_takesBrace hpair.takesBrace)

/-- The fixes before the brace are those of the rules before this one. -/
theorem earlierFixes_eq {options : LintOptions} {text : Text} {above index : Nat}
    {front back : List Rule}
    (hpair : IsPair profile.style (SourceLines.ofText text).lines above index)
    (hrules : Analyzer.activeRules options rules = front ++ rule profile.style :: back)
    (hfront : appending (SourceLines.ofText text).lines above ∉
      Rule.runAll front (SourceLines.ofText text).lines) :
    earlierFixes options text above =
      ofLine (fixable (Rule.runAll front (SourceLines.ofText text).lines)) above := by
  let lines := (SourceLines.ofText text).lines
  let own := Rule.runGuarded lines (rule profile.style)
  have hfixes : fixesOfLine options text above = ofLine (fixable (Rule.runAll front lines)) above ++
      (ofLine (fixable own) above ++ ofLine (fixable (Rule.runAll back lines)) above) := by
    have hrun : analyzer.analyze options text =
        Rule.runAll front lines ++ (own ++ Rule.runAll back lines) := by
      change Rule.runAll (Analyzer.activeRules options rules) lines = _
      rw [hrules, Rule.runAll_append]
      rfl
    simp only [fixesOfLine, hrun, fixable, List.filter_append, ofLine_append]
  have hown : ∀ d ∈ ofLine (fixable own) above, d = appending lines above := by
    intro d hd
    obtain ⟨hfix, hline⟩ := mem_ofLine.mp hd
    exact eq_appending_of_line_eq hpair (List.mem_of_mem_filter hfix) hline
  have hmem : appending lines above ∈ ofLine (fixable own) above := by
    refine mem_ofLine.mpr ⟨List.mem_filter.mpr ⟨?_, rfl⟩, by simp [appending, reported]⟩
    exact mem_runGuarded_iff.mpr ⟨above, index, hpair, Or.inl rfl⟩
  obtain ⟨d, rest, hcons⟩ := List.exists_cons_of_ne_nil (List.ne_nil_of_mem hmem)
  obtain rfl : d = appending lines above := hown d (hcons ▸ List.mem_cons_self)
  have hbefore : ∀ d ∈ ofLine (fixable (Rule.runAll front lines)) above,
      (d != appending lines above) = true := by
    intro d hd
    refine bne_iff_ne.mpr fun heq => hfront ?_
    rw [← heq]
    exact List.mem_of_mem_filter (mem_ofLine.mp hd).1
  rw [earlierFixes, hfixes, List.takeWhile_append_of_pos hbefore, hcons, List.cons_append,
    List.takeWhile_cons_of_neg (by simp), List.append_nil]

def spacedArrow : Text := "'use strict';\nx  =>x  \n\x7b\n\x7d\n".toList

def arrowLines : List Text :=
  ["'use strict';".toList, "x  =>x  ".toList, ['{'], ['}']]

theorem lines_spacedArrow : (SourceLines.ofText spacedArrow).lines = arrowLines := by
  decide +kernel

theorem isPair_spacedArrow : IsPair profile.style (SourceLines.ofText spacedArrow).lines 1 2 :=
  ⟨by cbv, by cbv, by cbv⟩

theorem hunks_spacedArrow :
    Hunk.ofAppendedBrace (headerOf spacedArrow 1).dropIndentation.trimRight.length
      (headerOf spacedArrow 1).dropIndentation.trailingBlanks = [⟨7, 8, ['{']⟩] := by
  cbv

theorem normalize_spacedArrow : (spacing.normalize "x  =>x  ".toList).operators = [['=', '>']] ∧
    (spacing.normalize "x  =>x  ".toList).line = "x => x  ".toList := by
  have hsorted : spacing.table.byLength = _ := byLength_operators
  rw [OperatorSpacing.normalize, hsorted]
  decide +kernel

theorem run_spacing_spacedArrow : spacing.rule.run arrowLines =
    .ok [spacing.tightReport 1 ['=', '>'] "x  =>x  ".toList] := by
  have hloose : ∀ line ∈ ["'use strict';".toList, ['{'], ['}']],
      (spacing.normalize line).operators = [] ∧ (spacing.normalize line).keywords = [] := by
    have hsorted : spacing.table.byLength = _ := byLength_operators
    simp only [OperatorSpacing.normalize, hsorted]
    decide +kernel
  have hquiet {line : Text} (hline : line ∈ ["'use strict';".toList, ['{'], ['}']]) (i : Nat) :
      spacing.check i line = [] :=
    OperatorSpacing.check_eq_nil_of_not_tight (hloose line hline).1 (hloose line hline).2 i
  have hchecks : Rule.eachLine spacing.check arrowLines =
      spacing.check 1 "x  =>x  ".toList := by
    change spacing.check 0 _ ++ (_ ++ (spacing.check 2 _ ++ (spacing.check 3 _ ++ []))) = _
    rw [hquiet List.mem_cons_self, hquiet (by simp), hquiet (by simp)]
    exact List.append_nil _
  change (Rule.eachLine spacing.check arrowLines).mapM _ = _
  rw [hchecks, OperatorSpacing.check_eq_singleton (by decide +kernel) normalize_spacedArrow.1,
    List.mapM_cons, OperatorSpacing.report_eq_tightReport rfl]
  rfl

/-- Of the rules before the one for braces, only the one for operators reports the text. -/
theorem runAll_spacedArrow : Rule.runAll (rules.take 6) (SourceLines.ofText spacedArrow).lines =
    [spacing.tightReport 1 ['=', '>'] "x  =>x  ".toList] := by
  have hsplit : rules.take 6 = rules.take 4 ++ [spacing.rule,
      IndentationStep.rule { unit := profile.indentUnit, style := profile.style }] := rfl
  have hfirst : Rule.runAll (rules.take 4) arrowLines = [] := by decide +kernel
  have hindent : Rule.runGuarded arrowLines
      (IndentationStep.rule { unit := profile.indentUnit, style := profile.style }) = [] := by
    decide +kernel
  rw [lines_spacedArrow, hsplit, Rule.runAll_append, hfirst]
  simp only [Rule.runAll, List.flatMap_cons, List.flatMap_nil, hindent,
    Rule.runGuarded_of_ok run_spacing_spacedArrow, List.nil_append, List.append_nil]

theorem exists_conflicts_spacedArrow :
    ∃ k ∈ (Composition.ofRevisions (headerOf spacedArrow 1).dropIndentation
      ((earlierFixes {} spacedArrow 1).map (·.newText))).accepted,
        (⟨7, 8, ['{']⟩ : Hunk).conflicts k = true := by
  have hrules : Analyzer.activeRules {} rules =
      rules.take 6 ++ rule profile.style :: rules.drop 7 := rfl
  have hother : appending (SourceLines.ofText spacedArrow).lines 1 ≠
      spacing.tightReport 1 ['=', '>'] "x  =>x  ".toList := by
    intro heq
    exact absurd (congrArg Diagnostic.code heq) (by decide)
  have hearlier : (earlierFixes {} spacedArrow 1).map (·.newText) = ["x => x  ".toList] := by
    rw [earlierFixes_eq isPair_spacedArrow hrules (by simpa [runAll_spacedArrow] using hother),
      runAll_spacedArrow, ← normalize_spacedArrow.2]
    rfl
  have hheader : (headerOf spacedArrow 1).dropIndentation = "x  =>x  ".toList := by
    rw [headerOf, lines_spacedArrow]
    decide
  rw [hearlier, hheader]
  decide +kernel

/-- The line of the brace is deleted, but the brace is not appended to the header: it is lost. -/
theorem pair_applied_iff_spacedArrow :
    IsPair profile.style (SourceLines.ofText spacedArrow).lines 1 2 ∧
      deleting (SourceLines.ofText spacedArrow).lines 2 ∈
          (Run.formatWith analyzer {} spacedArrow none).applied ∧
        appending (SourceLines.ofText spacedArrow).lines 1 ∉
          (Run.formatWith analyzer {} spacedArrow none).applied := by
  have hactive : ({} : LintOptions).ignore.contains Spec.braceSameLine.code.toList = false := rfl
  obtain ⟨hdeleting, happending⟩ := pair_applied_iff hactive isPair_spacedArrow
  refine ⟨isPair_spacedArrow, hdeleting, fun happlied => ?_⟩
  obtain ⟨k, hk, hconflicts⟩ := exists_conflicts_spacedArrow
  have hfree := happending.mp happlied ⟨7, 8, ['{']⟩
    (by rw [hunks_spacedArrow]; exact List.mem_singleton_self _) k hk
  rw [hconflicts] at hfree
  cases hfree

end BraceSameLine

end LineLint
