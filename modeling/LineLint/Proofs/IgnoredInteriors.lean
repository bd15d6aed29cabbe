import LineLint.Proofs.FramedSpacing
import LineLint.Proofs.SettledCommas

/-!
# Interiors that play no part

The rules for spacing do not look into literals. Whatever stands in one, a line is left out or not,
reported or not, and reported with the same message; and the line that is proposed in its place is
the same but for the interior, which is copied.
-/

namespace LineLint

/-- The quotes of the language are no blanks, and nothing for which a line is left out has one in
it. -/
structure LiteralStyle.HasOwnQuotes (style : LiteralStyle) (skipped : List Text) : Prop
    extends style.IsDistinct where
  notBlank : ∀ quote ∈ style.quotes, isBlank quote = false
  starts : ∀ start ∈ [['/', '*'], ['*', '/'], ['*', ' ']] ++ skipped, ∀ quote ∈ style.quotes,
    quote ∉ start

def LiteralStyle.checksQuotes (style : LiteralStyle) (skipped : List Text) : Bool :=
  style.quotes.all fun quote => quote != '\\' && !isBlank quote &&
    (style.lineComment.toList ++ ([['/', '*'], ['*', '/'], ['*', ' ']] ++ skipped)).all
      fun start => !start.contains quote

theorem LiteralStyle.hasOwnQuotes_of_checksQuotes {style : LiteralStyle} {skipped : List Text}
    (h : style.checksQuotes skipped = true) : style.HasOwnQuotes skipped := by
  simp only [checksQuotes, List.all_eq_true, Bool.and_eq_true, bne_iff_ne, Bool.not_eq_true',
    List.contains_eq_mem, decide_eq_false_iff_not, List.forall_mem_append, Option.mem_toList] at h
  refine ⟨⟨fun hmem => (h _ hmem).1.1 rfl, fun mark hmark quote hquote => ?_⟩,
    fun quote hquote => (h quote hquote).1.2, fun start hstart quote hquote => ?_⟩
  · exact (h quote hquote).2.1 mark hmark
  · obtain ⟨hstars, hskipped⟩ := (h quote hquote).2.2
    rcases List.mem_append.mp hstart with hstart | hstart
    · exact hstars start hstart
    · exact hskipped start hstart

namespace LiteralFrame

section Lines

variable {style : LiteralStyle} {skipped : List Text} {f g : LiteralFrame} {X : Text}

theorem fill_eq_cons (f : LiteralFrame) (X : Text) :
    ∃ rest, f.fill X = f.before ++ f.quote :: rest := by
  obtain ⟨rest, hcons⟩ := f.literal_eq_cons X
  exact ⟨rest ++ f.after, by rw [fill, hcons, List.cons_append]⟩

/-- Whether a line is left out is told by what stands before the literal. -/
theorem skips_fill (h : style.HasOwnQuotes skipped) (hquote : f.quote ∈ style.quotes) (X : Text) :
    OperatorSpacing.skips style skipped (f.fill X) =
      (style.lineComment.any (fun mark => mark.isPrefixOf f.before.trimLeft) ||
        (style.blockComments &&
          f.before.trimLeft.startsWithAny [['/', '*'], ['*', '/'], ['*', ' ']]) ||
        f.before.trimLeft.startsWithAny skipped) := by
  obtain ⟨rest, hfill⟩ := f.fill_eq_cons X
  obtain ⟨rest', htrim⟩ :=
    Text.exists_trim_append_cons (h.notBlank f.quote hquote) f.before rest
  have hempty : (f.before.trimLeft ++ f.quote :: rest').isEmpty = false := by simp
  have hmark : style.lineComment.any
      (fun mark => mark.isPrefixOf (f.before.trimLeft ++ f.quote :: rest')) =
        style.lineComment.any fun mark => mark.isPrefixOf f.before.trimLeft := by
    cases hmark : style.lineComment with
    | none => rfl
    | some mark => exact Text.isPrefixOf_append_cons (h.mark mark hmark f.quote hquote) _ _
  have hstarts : ∀ part ∈ [['/', '*'], ['*', '/'], ['*', ' ']], f.quote ∉ part := fun part hpart =>
    h.starts part (List.mem_append_left _ hpart) f.quote hquote
  have hskipped : ∀ part ∈ skipped, f.quote ∉ part := fun part hpart =>
    h.starts part (List.mem_append_right _ hpart) f.quote hquote
  have hstar : (f.before.trimLeft ++ f.quote :: rest' == ['*']) = false := by
    refine beq_eq_false_iff_ne.mpr fun hsame => ?_
    have hmem : f.quote ∈ f.before.trimLeft ++ f.quote :: rest' := by simp
    rw [hsame, List.mem_singleton] at hmem
    exact hstarts ['*', '/'] (by simp) (hmem ▸ List.mem_cons_self)
  rw [OperatorSpacing.skips, hfill, htrim]
  simp only [hempty, LiteralStyle.isCommentLine, hmark, hstar, Bool.or_false, Bool.false_or,
    Text.startsWithAny_append_cons hstarts, Text.startsWithAny_append_cons hskipped]

/-- Lines of two frames with other gaps are the same only if the frames are. -/
theorem Respaces.fill_eq_iff (h : g.Respaces f) (hquote : isSpaceOrTab f.quote = false) :
    g.fill X = f.fill X ↔ g = f := by
  refine ⟨fun hfill => ?_, fun hsame => by rw [hsame]⟩
  obtain ⟨rest, hcons⟩ := f.literal_eq_cons X
  obtain ⟨hsame, htriple, hbefore, -⟩ := h
  have hliteral : g.literal X = f.literal X := by
    rw [literal, literal, delimiter, delimiter, hsame, htriple]
  rw [fill, fill, hliteral] at hfill
  have hfront : g.before = f.before := by
    rw [hcons, List.cons_append, List.cons_append] at hfill
    exact Text.eq_of_solid_eq hfill hquote hquote hbefore
  rw [hfront] at hfill
  have hback : g.after = f.after :=
    List.append_cancel_left (List.append_cancel_left hfill)
  rw [show g = ⟨g.before, g.quote, g.isTriple, g.after⟩ from rfl, hfront, hsame, htriple, hback]

end Lines

end LiteralFrame

open LiteralFrame (Swaps)

section Findings

variable {style : LiteralStyle} {f g : LiteralFrame} {I : Text} {check : Text → List Finding}

/-- What a check finds in a line, whatever stands in its literal: at most one thing, and then with
a frame for the new line. -/
def FindsBeside (check : Text → List Finding) (style : LiteralStyle) (f : LiteralFrame)
    (I : Text) : Prop :=
  ∃ found : Option (Finding × LiteralFrame), (∀ p ∈ found, p.2.Respaces f) ∧
    ∀ X, Swaps style f I X →
      check (f.fill X) = (found.map fun p => { p.1 with replacement := p.2.fill X }).toList

theorem findsBeside_nil (h : ∀ X, Swaps style f I X → check (f.fill X) = []) :
    FindsBeside check style f I := by
  refine ⟨none, ?_, h⟩
  rintro p ⟨⟩

theorem findsBeside_singleton (found : Finding) (hg : g.Respaces f)
    (h : ∀ X, Swaps style f I X →
      check (f.fill X) = [{ found with replacement := g.fill X }]) :
    FindsBeside check style f I := by
  refine ⟨some (found, g), ?_, h⟩
  rintro p ⟨⟩
  exact hg

/-- Lines are left out together or not at all. -/
theorem findsBeside_unless_skipped {skipped : List Text} (hquotes : style.HasOwnQuotes skipped)
    (hI : Swaps style f I I) (h : FindsBeside check style f I) :
    FindsBeside (fun line => if OperatorSpacing.skips style skipped line then [] else check line)
      style f I := by
  have hskips : ∀ X, OperatorSpacing.skips style skipped (f.fill X) =
      OperatorSpacing.skips style skipped (f.fill I) := by
    intro X
    rw [LiteralFrame.skips_fill hquotes hI.quote_mem, LiteralFrame.skips_fill hquotes hI.quote_mem]
  by_cases hskip : OperatorSpacing.skips style skipped (f.fill I) = true
  · refine findsBeside_nil fun X _ => if_pos ?_
    rw [hskips X, hskip]
  · obtain ⟨found, hrespaces, hcheck⟩ := h
    refine ⟨found, hrespaces, fun X hX => (if_neg ?_).trans (hcheck X hX)⟩
    rwa [hskips X]

theorem OperatorSpacing.findsBeside_check {r : OperatorSpacing} (h : r.IsRegular)
    (hquotes : r.style.HasOwnQuotes r.skipped) (hI : Swaps r.style f I I) (i : Nat) :
    FindsBeside (r.check i) r.style f I := by
  obtain ⟨g, operators, keywords, hg, hnormalize⟩ := exists_normalize_fill h hI
  refine findsBeside_unless_skipped hquotes hI ?_
  cases operators with
  | cons operator operators =>
      refine findsBeside_singleton { index := i, fields := [("operator", operator)] } hg
        fun X hX => ?_
      rw [hnormalize X hX]
  | nil =>
      cases keywords with
      | cons keyword keywords =>
          refine findsBeside_singleton
            { index := i
              fields := [("operator", keyword)]
              message := "Missing space after '".toList ++ keyword ++ ['\''] } hg fun X hX => ?_
          rw [hnormalize X hX]
      | nil =>
          refine findsBeside_nil fun X hX => ?_
          rw [hnormalize X hX]

theorem CommaSpacing.findsBeside_check {r : CommaSpacing}
    (hquotes : r.style.HasOwnQuotes r.skipped) (hI : Swaps r.style f I I) (i : Nat) :
    FindsBeside (r.check i) r.style f I := by
  obtain ⟨g, hg, hnormalize⟩ := exists_normalize_fill hI
  have hquote : isSpaceOrTab f.quote = false :=
    OperatorSpacing.isSpaceOrTab_of_not_isBlank (hquotes.notBlank f.quote hI.quote_mem)
  refine findsBeside_unless_skipped hquotes hI ?_
  by_cases hsame : g = f
  · refine findsBeside_nil fun X hX => ?_
    rw [hnormalize X hX, hsame]
    exact if_pos (beq_self_eq_true _)
  · refine findsBeside_singleton { index := i } hg fun X hX => ?_
    rw [hnormalize X hX]
    exact if_neg (by rwa [beq_iff_eq, hg.fill_eq_iff hquote])

end Findings

section Reports

variable {spec : Spec} {info : RuleInfo} {check : Nat → Text → List Finding} {style : LiteralStyle}
  {f : LiteralFrame} {I : Text} {found : Finding} {snippet : Text} {replacement : Option Text}
  {d : Diagnostic} {n : Int}

theorem Spec.diagnostic_with (h : spec.diagnostic n snippet found = .ok d) (snippet' : Text)
    (replacement : Option Text) :
    spec.diagnostic n snippet' { found with replacement } =
      .ok { d with snippet := snippet', replacement } := by
  unfold diagnostic at h ⊢
  cases hmessage : found.message <;> cases hhint : found.hint
  all_goals
    simp only [hmessage, hhint] at h ⊢
    obtain ⟨message, hmessage, h⟩ := bind_eq_ok_iff.mp h
    obtain ⟨hint, hhint, h⟩ := bind_eq_ok_iff.mp h
    cases h
    rw [hmessage, hhint]
    rfl

/-- The report `d` on the line of a frame, with the line of another one in its place. -/
def Diagnostic.ofFill (d : Diagnostic) (f g : LiteralFrame) (X : Text) : Diagnostic :=
  { d with snippet := f.fill X, replacement := g.fill X }

/-- On the line of a frame, a rule that looks at one line at a time reports what its check finds
there, and the reports on all other lines are the same for every interior. -/
theorem exists_run_fill (hindex : ∀ i line, ∀ found ∈ check i line, found.index = i)
    (hruns : ∀ lines, ∃ ds, (Rule.ofCheck spec info (Rule.eachLine check)).run lines = .ok ds)
    (hdistinct : style.IsDistinct) (hI : f.IsInterior I)
    (hliteral : f.span I.length ∈ style.literals (f.fill I))
    (hfinds : Swaps style f I I → ∀ i, FindsBeside (check i) style f I) (front back : List Text) :
    ∃ (first last : List Diagnostic) (report : Option (Diagnostic × LiteralFrame)),
      (∀ d ∈ first ++ last, d.line ≠ front.length + 1) ∧
        (∀ p ∈ report, p.1.line = front.length + 1 ∧ p.2.Respaces f) ∧
        ∀ X, f.IsInterior X → X.length = I.length →
          (Rule.ofCheck spec info (Rule.eachLine check)).run (front ++ f.fill X :: back) =
            .ok (first ++ ((report.map fun p => p.1.ofFill f p.2 X).toList ++ last)) := by
  have hswaps : ∀ X, f.IsInterior X → X.length = I.length → Swaps style f I X :=
    fun X hX hlength => ⟨hdistinct, hliteral, hI, hX, hlength⟩
  obtain ⟨ds, hrun⟩ := hruns (front ++ f.fill I :: back)
  obtain ⟨first, own, last, rfl, hothers, hown, hbeside⟩ := Rule.exists_reports_beside hindex hrun
  obtain ⟨found, hrespaces, hcheck⟩ := hfinds (hswaps I hI rfl) front.length
  rw [hcheck I (hswaps I hI rfl)] at hown
  cases found with
  | none =>
      refine ⟨first, last, none, hothers, by rintro p ⟨⟩, fun X hX hlength => hbeside _ _ ?_⟩
      rw [hcheck X (hswaps X hX hlength)]
      rfl
  | some entry =>
      obtain ⟨found, g⟩ := entry
      obtain ⟨d, hd⟩ : ∃ d, spec.diagnostic (front.length + 1) (f.fill I)
          { found with replacement := g.fill I } = .ok d := by
        obtain ⟨d, hd, -⟩ := bind_eq_ok_iff.mp ((List.mapM_cons ..).symm.trans hown)
        exact ⟨d, hd⟩
      refine ⟨first, last, some (d, g), hothers, ?_, fun X hX hlength => hbeside _ _ ?_⟩
      · rintro p ⟨⟩
        exact ⟨(Spec.diagnostic_eq_ok hd).1, hrespaces (found, g) rfl⟩
      · have hreport := Spec.diagnostic_with hd (f.fill X) (g.fill X)
        rw [hcheck X (hswaps X hX hlength)]
        change List.mapM _ [_] = _
        rw [List.mapM_cons, hreport]
        rfl

end Reports

section Builtin

def Rule.isSpacing (rule : Rule) : Bool :=
  rule.code == Spec.operatorSpacing.code || rule.code == Spec.commaSpacing.code

theorem exists_of_isSpacing {a : Analyzer} (ha : a ∈ Registry.builtin.analyzers) {rule : Rule}
    (hrule : rule ∈ a.rules) (hspacing : rule.isSpacing = true) :
    (∃ r ∈ OperatorSpacing.builtin, r.rule = rule ∧ r.style = a.profile.style) ∨
      ∃ r ∈ CommaSpacing.builtin, r.rule = rule ∧ r.style = a.profile.style := by
  rcases Bool.or_eq_true_iff.mp hspacing with hcode | hcode
  · obtain ⟨r, hr, hentry⟩ := (Registry.exists_mem_table_iff OperatorSpacing.perm_registered).mpr
      ⟨a, ha, hrule, eq_of_beq hcode, rfl⟩
    obtain ⟨hstyle, hr'⟩ := Prod.mk.inj hentry
    exact Or.inl ⟨r, hr, hr', hstyle⟩
  · obtain ⟨r, hr, hentry⟩ := (Registry.exists_mem_table_iff CommaSpacing.perm_registered).mpr
      ⟨a, ha, hrule, eq_of_beq hcode, rfl⟩
    obtain ⟨hstyle, hr'⟩ := Prod.mk.inj hentry
    exact Or.inr ⟨r, hr, hr', hstyle⟩

theorem hasOwnQuotes_builtin :
    (∀ r ∈ OperatorSpacing.builtin, r.style.HasOwnQuotes r.skipped) ∧
      ∀ r ∈ CommaSpacing.builtin, r.style.HasOwnQuotes r.skipped := by
  let entries := OperatorSpacing.builtin.map (fun r => (r.style, r.skipped)) ++
    CommaSpacing.builtin.map fun r => (r.style, r.skipped)
  have hchecks : entries.all (fun e => e.1.checksQuotes e.2) = true := by decide +kernel
  have hquotes : ∀ e ∈ entries, e.1.HasOwnQuotes e.2 := fun e he =>
    LiteralStyle.hasOwnQuotes_of_checksQuotes (List.all_eq_true.mp hchecks e he)
  constructor
  · exact fun r hr => hquotes _ (List.mem_append_left _ (List.mem_map_of_mem hr))
  · exact fun r hr => hquotes _ (List.mem_append_right _ (List.mem_map_of_mem hr))

/-- A rule for spacing does not look into literals. For a line with a literal in it, whatever interior
takes the place of the literal's own, the rule reports the line or it does not; the reports differ in
the line that they quote and in the new line, and these differ in the interior alone. -/
theorem run_fill_of_isSpacing {a : Analyzer} (ha : a ∈ Registry.builtin.analyzers) {rule : Rule}
    (hrule : rule ∈ a.rules) (hspacing : rule.isSpacing = true) {f : LiteralFrame} {I : Text}
    (hI : f.IsInterior I) (hliteral : f.span I.length ∈ a.profile.style.literals (f.fill I))
    (front back : List Text) :
    ∃ (first last : List Diagnostic) (report : Option (Diagnostic × LiteralFrame)),
      (∀ d ∈ first ++ last, d.line ≠ front.length + 1) ∧
        (∀ p ∈ report, p.1.line = front.length + 1 ∧ p.2.Respaces f) ∧
        ∀ X, f.IsInterior X → X.length = I.length →
          rule.run (front ++ f.fill X :: back) =
            .ok (first ++ ((report.map fun p => p.1.ofFill f p.2 X).toList ++ last)) := by
  rcases exists_of_isSpacing ha hrule hspacing with ⟨r, hr, rfl, hstyle⟩ | ⟨r, hr, rfl, hstyle⟩
  · rw [← hstyle] at hliteral
    have hquotes := hasOwnQuotes_builtin.1 r hr
    have hregular := OperatorSpacing.isRegular_of_mem_builtin r hr
    have hsound := OperatorSpacing.isSound fun t ht => (hregular.operators t ht).1
    exact exists_run_fill (fun i line found hfound => (OperatorSpacing.mem_check hfound).1)
      hsound.runs hquotes.toIsDistinct hI hliteral
      (OperatorSpacing.findsBeside_check hregular hquotes) front back
  · rw [← hstyle] at hliteral
    have hquotes := hasOwnQuotes_builtin.2 r hr
    exact exists_run_fill (fun i line found hfound => by rw [CommaSpacing.mem_check hfound])
      r.isSound.runs hquotes.toIsDistinct hI hliteral (CommaSpacing.findsBeside_check hquotes) front
      back

def literalCall : LiteralFrame where
  before := "x=f(".toList
  quote := '\''
  after := ",1)".toList

theorem run_fill_of_isSpacing_literalCall :
    ∃ (d : Diagnostic) (g : LiteralFrame), g.Respaces literalCall ∧
      Python.spacing.rule.run [literalCall.fill "a+b".toList] =
        .ok [d.ofFill literalCall g "a+b".toList] ∧
      Python.spacing.rule.run [literalCall.fill "#,<".toList] =
        .ok [d.ofFill literalCall g "#,<".toList] := by
  have ha : ⟨Python.profile, Python.rules⟩ ∈ Registry.builtin.analyzers := by
    simp [Registry.builtin]
  have hrule : Python.spacing.rule ∈ Python.rules := List.mem_cons_self
  have hI : literalCall.IsInterior "a+b".toList := ⟨by decide, by decide, by decide⟩
  have hliteral : literalCall.span "a+b".toList.length ∈
      Python.profile.style.literals (literalCall.fill "a+b".toList) := by decide +kernel
  obtain ⟨first, last, report, hothers, hreport, hrun⟩ :=
    run_fill_of_isSpacing ha hrule rfl hI hliteral [] []
  have hsum := hrun "a+b".toList hI rfl
  have hcomment := hrun "#,<".toList ⟨by decide, by decide, by decide⟩ rfl
  -- all reports are on the only line
  have hnone : ∀ d ∈ first ++ last, False := by
    intro d hd
    have hd' : d ∈ first ++ ((report.map fun p => p.1.ofFill literalCall p.2
        "a+b".toList).toList ++ last) := by
      rcases List.mem_append.mp hd with hd | hd
      · exact List.mem_append_left _ hd
      · exact List.mem_append_right _ (List.mem_append_right _ hd)
    obtain ⟨i, hline, hat, -⟩ := OperatorSpacing.exists_normalize_of_mem hsum hd'
    have hi : i < 1 := (List.getElem?_eq_some_iff.mp hat).1
    exact hothers d hd (by rw [hline, Nat.lt_one_iff.mp hi]; rfl)
  obtain ⟨rfl, rfl⟩ := List.append_eq_nil_iff.mp (List.eq_nil_iff_forall_not_mem.mpr hnone)
  have hsorted : Python.spacing.table.byLength = _ := Python.byLength_operators
  have htight : (Python.spacing.normalize (literalCall.fill "a+b".toList)).operators = [['=']] := by
    rw [OperatorSpacing.normalize, hsorted]
    decide +kernel
  have hmem := OperatorSpacing.tightReport_mem (i := 0) hsum rfl (by decide +kernel) htight
  cases report with
  | none => cases hmem
  | some p => exact ⟨p.1, p.2, (hreport p rfl).2, hsum, hcomment⟩

end Builtin

end LineLint
