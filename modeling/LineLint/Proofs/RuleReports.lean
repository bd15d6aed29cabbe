import LineLint.Proofs.Computation
import LineLint.Registry

/-!
# What rules report

Every built-in rule reports its own code, and each of its diagnostics quotes a line of the text that
was inspected. Codes that move lines are reported only for a language that says which lines move.
A table of rules has all the rules of a code if it lists what the analyzers register under the code.
-/

namespace LineLint

namespace Spec

theorem diagnostic_eq_ok {spec : Spec} {line : Int} {snippet : Text} {f : Finding} {d : Diagnostic}
    (h : spec.diagnostic line snippet f = .ok d) :
    d.line = line ∧ d.snippet = snippet ∧ d.code = spec.code ∧ d.category = spec.category ∧
      d.replacement = f.replacement := by
  unfold diagnostic at h
  cases hmessage : f.message <;> cases hhint : f.hint
  all_goals
    simp only [hmessage, hhint] at h
    obtain ⟨message, -, h⟩ := bind_eq_ok_iff.mp h
    obtain ⟨hint, -, h⟩ := bind_eq_ok_iff.mp h
    cases h
    exact ⟨rfl, rfl, rfl, rfl, rfl⟩

theorem report_eq_ok {spec : Spec} {lines : List Text} {f : Finding} {d : Diagnostic}
    (h : spec.report lines f = .ok d) :
    d.line = f.index + 1 ∧ lines[f.index]? = some d.snippet ∧ d.code = spec.code ∧
      d.category = spec.category ∧ d.replacement = f.replacement := by
  unfold report at h
  cases hline : lines[f.index]? with
  | none =>
      rw [hline] at h
      cases h
  | some line =>
      rw [hline] at h
      obtain ⟨hat, hsnippet, hrest⟩ := diagnostic_eq_ok h
      exact ⟨hat, by rw [hsnippet], hrest⟩

end Spec

namespace Rule

def QuotesLines (r : Rule) : Prop :=
  ∀ (lines : List Text) (d : Diagnostic), d ∈ runGuarded lines r →
    d.code = r.code ∧ ∃ i : Nat, d.line = i + 1 ∧ lines[i]? = some d.snippet

theorem runGuarded_of_ok {r : Rule} {lines : List Text} {ds : List Diagnostic}
    (h : r.run lines = .ok ds) : runGuarded lines r = ds := by
  rw [runGuarded, h]

section Findings

variable {spec : Spec} {info : RuleInfo} {find : List Text → Except Fault (List Finding)}
  {check : List Text → List Finding} {lines : List Text} {found : List Finding} {f : Finding}
  {ds : List Diagnostic} {d : Diagnostic}

theorem exists_found_of_mem (hrun : (ofFindings spec info find).run lines = .ok ds) (hd : d ∈ ds) :
    ∃ found, find lines = .ok found ∧ ∃ f ∈ found, spec.report lines f = .ok d := by
  obtain ⟨found, hfound, hreports⟩ := bind_eq_ok_iff.mp hrun
  exact ⟨found, hfound, mem_of_mapM_eq_ok hreports hd⟩

theorem exists_mem_of_found (hrun : (ofFindings spec info find).run lines = .ok ds)
    (hfound : find lines = .ok found) (hf : f ∈ found) : ∃ d ∈ ds, spec.report lines f = .ok d := by
  obtain ⟨found', hfound', hreports⟩ := bind_eq_ok_iff.mp hrun
  obtain rfl := Except.ok.inj (hfound.symm.trans hfound')
  exact exists_mem_of_mapM_eq_ok hreports hf

theorem mem_iff_of_run_ofCheck (hrun : (ofCheck spec info check).run lines = .ok ds) :
    d ∈ ds ↔ ∃ f ∈ check lines, spec.report lines f = .ok d := by
  constructor
  · intro hd
    obtain ⟨found, hfound, hreport⟩ := exists_found_of_mem hrun hd
    rwa [← Except.ok.inj hfound] at hreport
  · rintro ⟨f, hf, hreport⟩
    obtain ⟨d', hd', hreport'⟩ := exists_mem_of_found hrun rfl hf
    rwa [Except.ok.inj (hreport.symm.trans hreport')]

theorem mem_runGuarded_ofFindings (h : d ∈ runGuarded lines (ofFindings spec info find)) :
    ∃ found, find lines = .ok found ∧ ∃ f ∈ found, spec.report lines f = .ok d := by
  unfold runGuarded at h
  split at h
  · rename_i ds hrun
    exact exists_found_of_mem hrun h
  · cases h

end Findings

theorem quotesLines_ofFindings (spec : Spec) (info : RuleInfo)
    (find : List Text → Except Fault (List Finding)) :
    (ofFindings spec info find).QuotesLines := by
  intro lines d hd
  obtain ⟨found, -, f, -, hreport⟩ := mem_runGuarded_ofFindings hd
  obtain ⟨hline, hquoted, hcode, -, -⟩ := Spec.report_eq_ok hreport
  exact ⟨hcode, f.index, hline, hquoted⟩

theorem runAll_append (front back : List Rule) (lines : List Text) :
    runAll (front ++ back) lines = runAll front lines ++ runAll back lines :=
  List.flatMap_append

theorem mem_runAll {rules : List Rule} {lines : List Text} {d : Diagnostic} :
    d ∈ runAll rules lines ↔ ∃ r ∈ rules, d ∈ runGuarded lines r :=
  List.mem_flatMap

end Rule

namespace Registry

theorem quotesLines_of_mem_builtin {a : Analyzer} (ha : a ∈ builtin.analyzers) :
    ∀ r ∈ a.rules, r.QuotesLines := by
  simp only [builtin, List.mem_cons, List.not_mem_nil, or_false] at ha
  rcases ha with rfl | rfl | rfl | rfl | rfl | rfl
  all_goals
    repeat refine List.forall_mem_cons.mpr ⟨Rule.quotesLines_ofFindings _ _ _, ?_⟩
    exact List.forall_mem_nil _

/-- Only a language that says which lines move has a rule that moves lines. -/
theorem relocatable_of_mem_builtin {a : Analyzer} (ha : a ∈ builtin.analyzers) :
    (a.rules.all fun r => !Spec.relocates r.code) = true ∨ a.profile.relocatable.isSome := by
  simp only [builtin, List.mem_cons, List.not_mem_nil, or_false] at ha
  rcases ha with rfl | rfl | rfl | rfl | rfl | rfl
  · exact Or.inl (by decide)
  · exact Or.inl (by decide)
  · exact Or.inr (by decide)
  · exact Or.inl (by decide)
  · exact Or.inl (by decide)
  · exact Or.inl (by decide)

theorem indentUnit_of_mem_builtin {a : Analyzer} (ha : a ∈ builtin.analyzers) :
    a.profile.indentUnit = 4 := by
  simp only [builtin, List.mem_cons, List.not_mem_nil, or_false] at ha
  rcases ha with rfl | rfl | rfl | rfl | rfl | rfl
  all_goals rfl

/-- The rules of the analyzers that report under a code, each with the literals of its language. -/
def registered (code : String) : List (LiteralStyle × Rule) :=
  builtin.analyzers.flatMap fun a =>
    (a.rules.filter (·.code == code)).map fun r => (a.profile.style, r)

/-- A table that lists what is registered under a code has all the rules of that code, and no
others. -/
theorem exists_mem_table_iff {ι : Type} {table : List ι} {entry : ι → LiteralStyle × Rule}
    {code : String} (h : (table.map entry).Perm (registered code)) {style : LiteralStyle}
    {r : Rule} :
    (∃ i ∈ table, entry i = (style, r)) ↔
      ∃ a ∈ builtin.analyzers, r ∈ a.rules ∧ r.code = code ∧ a.profile.style = style := by
  rw [← List.mem_map, h.mem_iff, registered, List.mem_flatMap]
  simp only [List.mem_map, List.mem_filter, beq_iff_eq, Prod.mk.injEq]
  constructor
  · rintro ⟨a, ha, r, ⟨hr, hcode⟩, hstyle, rfl⟩
    exact ⟨a, ha, hr, hcode, hstyle⟩
  · rintro ⟨a, ha, hr, hcode, hstyle⟩
    exact ⟨a, ha, r, ⟨hr, hcode⟩, hstyle, rfl⟩

end Registry

end LineLint
