import LineLint.Proofs.RuleReports
import LineLint.Proofs.TrimmedText

/-!
# Sound rules

A sound rule comes to a result for every text, and it deletes no line but spare ones. For a rule
that reports the findings of a check this comes down to the findings: each names a line of the
text, carries the fields that the texts of its specification need, and deletes its line only if
that line is spare.
-/

namespace LineLint

namespace Template

def slots : Template → List String
  | [] => []
  | .text _ :: rest => slots rest
  | .slot name :: rest => name :: slots rest

theorem exists_lookup {fields : Fields} {name : String} (h : name ∈ fields.map (·.1)) :
    ∃ value, fields.lookup name = some value := by
  induction fields with
  | nil => cases h
  | cons field rest ih =>
      obtain ⟨key, value⟩ := field
      rw [List.lookup_cons]
      cases hkey : name == key with
      | true => exact ⟨value, rfl⟩
      | false =>
          rcases List.mem_cons.mp h with rfl | h
          · simp at hkey
          · exact ih h

theorem exists_fill {fields : Fields} {t : Template}
    (h : ∀ name ∈ t.slots, name ∈ fields.map (·.1)) : ∃ text, t.fill fields = .ok text := by
  induction t with
  | nil => exact ⟨[], rfl⟩
  | cons piece rest ih =>
      cases piece with
      | text s =>
          obtain ⟨text, htext⟩ := ih h
          refine ⟨s.toList ++ text, ?_⟩
          rw [fill, htext]
          rfl
      | slot name =>
          have hname : name ∈ fields.map (·.1) := h name List.mem_cons_self
          obtain ⟨value, hvalue⟩ := exists_lookup hname
          obtain ⟨text, htext⟩ := ih fun other hother => h other (List.mem_cons_of_mem _ hother)
          refine ⟨value ++ text, ?_⟩
          rw [fill, hvalue, htext]
          rfl

end Template

def IsSpare (line : Text) : Prop := line.allBlank = true ∨ line.trim = ['{']

theorem isSpare_nil : IsSpare [] := Or.inl rfl

namespace Finding

/-- Whether a finding brings the fields that its message and its hint need, where it has none of its
own. -/
structure Fills (spec : Spec) (f : Finding) : Prop where
  message : f.message = none → ∀ name ∈ spec.message.slots, name ∈ f.fields.map (·.1)
  hint : f.hint = none → ∀ name ∈ spec.hint.slots, name ∈ f.fields.map (·.1)

/-- A finding that can be reported and that deletes its line, if at all, only if the line is spare.
-/
structure IsSound (spec : Spec) (lines : List Text) (f : Finding) : Prop where
  index_lt : f.index < lines.length
  fills : f.Fills spec
  spares : f.replacement = some [] → ∀ line, lines[f.index]? = some line → IsSpare line

theorem Fills.exists_diagnostic {spec : Spec} {f : Finding} (h : f.Fills spec) (number : Int)
    (snippet : Text) : ∃ d, spec.diagnostic number snippet f = .ok d := by
  unfold Spec.diagnostic
  cases hmessage : f.message with
  | some message =>
      cases hhint : f.hint with
      | some hint => exact ⟨_, rfl⟩
      | none =>
          obtain ⟨hint, hfill⟩ := Template.exists_fill (h.hint hhint)
          exact ⟨_, by simp only [hfill, bind, Except.bind]; rfl⟩
  | none =>
      obtain ⟨message, hfill⟩ := Template.exists_fill (h.message hmessage)
      cases hhint : f.hint with
      | some hint => exact ⟨_, by simp only [hfill, bind, Except.bind]; rfl⟩
      | none =>
          obtain ⟨hint, hfillHint⟩ := Template.exists_fill (h.hint hhint)
          exact ⟨_, by simp only [hfill, hfillHint, bind, Except.bind]; rfl⟩

section Sound

variable {spec : Spec} {lines : List Text} {f : Finding} {line : Text}

theorem isSound_of_isSpare (hline : lines[f.index]? = some line) (hfills : f.Fills spec)
    (hspare : IsSpare line) : f.IsSound spec lines where
  index_lt := (List.getElem?_eq_some_iff.mp hline).1
  fills := hfills
  spares _ other hother := by
    rw [hline] at hother
    obtain rfl := Option.some.inj hother
    exact hspare

theorem isSound_of_lt (hlt : f.index < lines.length) (hfills : f.Fills spec)
    (hne : f.replacement ≠ some []) : f.IsSound spec lines :=
  ⟨hlt, hfills, fun hnil => absurd hnil hne⟩

theorem isSound_of_ne_nil (hline : lines[f.index]? = some line) (hfills : f.Fills spec)
    (hne : f.replacement ≠ some []) : f.IsSound spec lines :=
  isSound_of_lt (List.getElem?_eq_some_iff.mp hline).1 hfills hne

/-- Whether a field is there for each slot can be computed, whatever the fields hold. -/
theorem fills_of_fields
    (h : (spec.message.slots ++ spec.hint.slots).all (f.fields.map (·.1)).contains = true) :
    f.Fills spec := by
  simp only [List.all_eq_true, List.contains_iff_mem] at h
  constructor
  · exact fun _ name hname => h name (List.mem_append_left _ hname)
  · exact fun _ name hname => h name (List.mem_append_right _ hname)

theorem fills_of_hint (hhint : f.hint ≠ none)
    (h : spec.message.slots.all (f.fields.map (·.1)).contains = true) : f.Fills spec where
  message _ name hname := List.contains_iff_mem.mp (List.all_eq_true.mp h name hname)
  hint hnone := absurd hnone hhint

theorem fills_of_own_texts (hmessage : f.message ≠ none) (hhint : f.hint ≠ none) :
    f.Fills spec where
  message hnone := absurd hnone hmessage
  hint hnone := absurd hnone hhint

theorem isSound_of_mem_ite {p : Prop} [Decidable p] {g : Finding}
    (h : p → f.IsSound spec lines) (hg : g ∈ if p then [f] else []) : g.IsSound spec lines := by
  obtain ⟨hp, hg⟩ := List.mem_ite_nil_right.mp hg
  obtain rfl := List.mem_singleton.mp hg
  exact h hp

end Sound

theorem IsSound.exists_report {spec : Spec} {lines : List Text} {f : Finding}
    (h : f.IsSound spec lines) : ∃ d, spec.report lines f = .ok d := by
  unfold Spec.report
  rw [List.getElem?_eq_getElem h.index_lt]
  exact h.fills.exists_diagnostic _ _

end Finding

namespace Rule

structure IsSound (r : Rule) : Prop where
  runs : ∀ lines, ∃ ds, r.run lines = .ok ds
  deletesSpare : ∀ (lines : List Text) (d : Diagnostic), d ∈ runGuarded lines r →
    d.isDeletion = true → IsSpare d.snippet

theorem isSound_ofFindings {spec : Spec} {info : RuleInfo}
    {find : List Text → Except Fault (List Finding)}
    (h : ∀ lines, ∃ found, find lines = .ok found ∧ ∀ f ∈ found, f.IsSound spec lines) :
    (ofFindings spec info find).IsSound where
  runs lines := by
    obtain ⟨found, hfound, hsound⟩ := h lines
    obtain ⟨ds, hds⟩ := exists_mapM_eq_ok fun f hf => (hsound f hf).exists_report
    exact ⟨ds, bind_eq_ok_iff.mpr ⟨found, hfound, hds⟩⟩
  deletesSpare lines d hd hdelete := by
    obtain ⟨found, hfound, f, hf, hreport⟩ := mem_runGuarded_ofFindings hd
    obtain ⟨found', hfound', hsound⟩ := h lines
    obtain rfl : found = found' := Except.ok.inj (hfound.symm.trans hfound')
    obtain ⟨-, hquoted, -, -, hreplacement⟩ := Spec.report_eq_ok hreport
    have hnew : d.replacement = some [] := by simpa [Diagnostic.isDeletion] using hdelete
    exact (hsound f hf).spares (hreplacement.symm.trans hnew) _ hquoted

def Replaces (r : Rule) (lines : List Text) (i : Nat) (new : Text) : Prop :=
  ∃ ds, r.run lines = .ok ds ∧ ∃ d ∈ ds, d.line = i + 1 ∧ d.replacement = some new

theorem replaces_ofFindings_iff {spec : Spec} {info : RuleInfo}
    {find : List Text → Except Fault (List Finding)} (hsound : (ofFindings spec info find).IsSound)
    {lines : List Text} {i : Nat} {new : Text} :
    (ofFindings spec info find).Replaces lines i new ↔
      ∃ found, find lines = .ok found ∧ ∃ f ∈ found, f.index = i ∧ f.replacement = some new := by
  constructor
  · rintro ⟨ds, hrun, d, hd, hline, hnew⟩
    obtain ⟨found, hfound, f, hf, hreport⟩ := exists_found_of_mem hrun hd
    obtain ⟨hat, -, -, -, hreplacement⟩ := Spec.report_eq_ok hreport
    exact ⟨found, hfound, f, hf, by omega, hreplacement ▸ hnew⟩
  · rintro ⟨found, hfound, f, hf, rfl, hnew⟩
    obtain ⟨ds, hrun⟩ := hsound.runs lines
    obtain ⟨d, hd, hreport⟩ := exists_mem_of_found hrun hfound hf
    obtain ⟨hat, -, -, -, hreplacement⟩ := Spec.report_eq_ok hreport
    exact ⟨ds, hrun, d, hd, hat, hreplacement.trans hnew⟩

theorem isSound_ofCheck {spec : Spec} {info : RuleInfo} {check : List Text → List Finding}
    (h : ∀ lines, ∀ f ∈ check lines, f.IsSound spec lines) : (ofCheck spec info check).IsSound :=
  isSound_ofFindings fun lines => ⟨check lines, rfl, h lines⟩

theorem mem_eachLine {check : Nat → Text → List Finding} {lines : List Text} {f : Finding} :
    f ∈ eachLine check lines ↔ ∃ i line, lines[i]? = some line ∧ f ∈ check i line := by
  simp only [eachLine, List.mem_flatMap, Prod.exists, List.mem_zipIdx_iff_getElem?]
  constructor
  · rintro ⟨line, i, hline, hf⟩
    exact ⟨i, line, hline, hf⟩
  · rintro ⟨i, line, hline, hf⟩
    exact ⟨line, i, hline, hf⟩

theorem mem_eachLineOrFail {check : Nat → Text → Except Fault (List Finding)} {lines : List Text}
    {found : List Finding} (h : eachLineOrFail check lines = .ok found) {f : Finding} :
    f ∈ found ↔ ∃ i line group, lines[i]? = some line ∧ check i line = .ok group ∧ f ∈ group := by
  obtain ⟨groups, hgroups, hflat⟩ := bind_eq_ok_iff.mp h
  obtain rfl : groups.flatten = found := Except.ok.inj hflat
  rw [List.mem_flatten]
  constructor
  · rintro ⟨group, hgroup, hf⟩
    obtain ⟨⟨line, i⟩, hentry, hcheck⟩ := mem_of_mapM_eq_ok hgroups hgroup
    exact ⟨i, line, group, List.mem_zipIdx_iff_getElem?.mp hentry, hcheck, hf⟩
  · rintro ⟨i, line, group, hline, hcheck, hf⟩
    have hentry : (line, i) ∈ lines.zipIdx := List.mem_zipIdx_iff_getElem?.mpr hline
    obtain ⟨group', hgroup, hcheck'⟩ := exists_mem_of_mapM_eq_ok hgroups hentry
    obtain rfl : group = group' := Except.ok.inj (hcheck.symm.trans hcheck')
    exact ⟨group, hgroup, hf⟩

end Rule

namespace Rule

variable {spec : Spec} {info : RuleInfo}

theorem isSound_eachLine {check : List Text → Nat → Text → List Finding}
    (h : ∀ lines i line, lines[i]? = some line → ∀ f ∈ check lines i line, f.IsSound spec lines) :
    (ofCheck spec info fun lines => eachLine (check lines) lines).IsSound := by
  refine isSound_ofCheck fun lines f hf => ?_
  obtain ⟨i, line, hline, hcheck⟩ := mem_eachLine.mp hf
  exact h lines i line hline f hcheck

/-- Checks that all come to a result with sound findings make up a sound check. -/
theorem exists_flatten_of_isSound {α : Type} {lines : List Text} {entries : List α}
    {check : α → Except Fault (List Finding)}
    (h : ∀ entry ∈ entries, ∃ found, check entry = .ok found ∧
      ∀ f ∈ found, f.IsSound spec lines) :
    ∃ found, (do return (← entries.mapM check).flatten) = .ok found ∧
      ∀ f ∈ found, f.IsSound spec lines := by
  have hresults : ∀ entry ∈ entries, ∃ found, check entry = .ok found := by
    intro entry hentry
    obtain ⟨found, hfound, -⟩ := h entry hentry
    exact ⟨found, hfound⟩
  obtain ⟨groups, hgroups⟩ := exists_mapM_eq_ok hresults
  refine ⟨groups.flatten, bind_eq_ok_iff.mpr ⟨groups, hgroups, rfl⟩, fun f hf => ?_⟩
  obtain ⟨group, hgroup, hf⟩ := List.mem_flatten.mp hf
  obtain ⟨entry, hentry, hcheck⟩ := mem_of_mapM_eq_ok hgroups hgroup
  obtain ⟨found, hfound, hsound⟩ := h entry hentry
  obtain rfl : group = found := Except.ok.inj (hcheck.symm.trans hfound)
  exact hsound f hf

theorem exists_append_of_isSound {lines : List Text} {first : List Finding}
    {further : Except Fault (List Finding)} (hfirst : ∀ f ∈ first, f.IsSound spec lines)
    (hfurther : ∃ found, further = .ok found ∧ ∀ f ∈ found, f.IsSound spec lines) :
    ∃ found, (do return first ++ (← further)) = .ok found ∧ ∀ f ∈ found, f.IsSound spec lines := by
  obtain ⟨found, hfound, hsound⟩ := hfurther
  refine ⟨first ++ found, bind_eq_ok_iff.mpr ⟨found, hfound, rfl⟩, fun f hf => ?_⟩
  rcases List.mem_append.mp hf with hf | hf
  · exact hfirst f hf
  · exact hsound f hf

end Rule

end LineLint
