import LineLint.Proofs.SoundRules
import LineLint.Proofs.TextCharacters

/-!
# Rules that add no carriage return

A rule adds no carriage return if, over lines without one, none of its fixes has one. For a rule
that reports the findings of a check this is a matter of the findings, and for a check of single
lines a matter of each line.
-/

namespace LineLint

def ReturnFree (lines : List Text) : Prop := ∀ line ∈ lines, '\r' ∉ line

theorem ReturnFree.of_mem_zipIdx {lines : List Text} (h : ReturnFree lines) {line : Text} {i : Nat}
    (hentry : (line, i) ∈ lines.zipIdx) : '\r' ∉ line :=
  h line (List.mem_of_getElem? (List.mem_zipIdx_iff_getElem?.mp hentry))

theorem ReturnFree.of_mem_zip_zipIdx {α : Type} {lines : List Text} {others : List α}
    (h : ReturnFree lines) {line : Text} {other : α} {i : Nat}
    (hentry : ((line, other), i) ∈ (lines.zip others).zipIdx) : '\r' ∉ line :=
  h line (List.of_mem_zip (List.mem_of_getElem? (List.mem_zipIdx_iff_getElem?.mp hentry))).1

def Finding.AddsNoReturn (f : Finding) : Prop := '\r' ∉ f.replacement.getD []

namespace Finding

variable {f : Finding}

theorem addsNoReturn_of_none (h : f.replacement = none) : f.AddsNoReturn := by
  simp [AddsNoReturn, h]

theorem addsNoReturn_of_mem_ite {p : Prop} [Decidable p] {g : Finding} (h : f.AddsNoReturn)
    (hg : g ∈ if p then [f] else []) : g.AddsNoReturn := by
  obtain ⟨-, hg⟩ := List.mem_ite_nil_right.mp hg
  exact List.mem_singleton.mp hg ▸ h

end Finding

namespace Rule

/-- A rule whose fixes bring no carriage return into lines without one. -/
def AddsNoReturn (r : Rule) : Prop :=
  ∀ lines, ReturnFree lines → ∀ d ∈ runGuarded lines r, '\r' ∉ d.newText

variable {spec : Spec} {info : RuleInfo}

theorem addsNoReturn_ofFindings {find : List Text → Except Fault (List Finding)}
    (h : ∀ lines, ReturnFree lines → ∀ found, find lines = .ok found →
      ∀ f ∈ found, f.AddsNoReturn) : (ofFindings spec info find).AddsNoReturn := by
  intro lines hlines d hd
  obtain ⟨found, hfound, f, hf, hreport⟩ := mem_runGuarded_ofFindings hd
  obtain ⟨-, -, -, -, hreplacement⟩ := Spec.report_eq_ok hreport
  rw [Diagnostic.newText, hreplacement]
  exact h lines hlines found hfound f hf

theorem addsNoReturn_ofCheck {check : List Text → List Finding}
    (h : ∀ lines, ReturnFree lines → ∀ f ∈ check lines, f.AddsNoReturn) :
    (ofCheck spec info check).AddsNoReturn :=
  addsNoReturn_ofFindings fun lines hlines _ hfound => Except.ok.inj hfound ▸ h lines hlines

theorem addsNoReturn_eachLine {check : List Text → Nat → Text → List Finding}
    (h : ∀ lines, ReturnFree lines → ∀ i line, '\r' ∉ line → ∀ f ∈ check lines i line,
      f.AddsNoReturn) :
    (ofCheck spec info fun lines => eachLine (check lines) lines).AddsNoReturn := by
  refine addsNoReturn_ofCheck fun lines hlines f hf => ?_
  obtain ⟨i, line, hline, hcheck⟩ := mem_eachLine.mp hf
  exact h lines hlines i line (hlines line (List.mem_of_getElem? hline)) f hcheck

theorem addsNoReturn_of_no_fix {check : List Text → List Finding}
    (h : ∀ lines, ∀ f ∈ check lines, f.replacement = none) :
    (ofCheck spec info check).AddsNoReturn :=
  addsNoReturn_ofCheck fun lines _ f hf => Finding.addsNoReturn_of_none (h lines f hf)

theorem mem_flatten_of_mapM {α : Type} {entries : List α}
    {check : α → Except Fault (List Finding)} {found : List Finding}
    (h : (do return (← entries.mapM check).flatten) = .ok found) {f : Finding} (hf : f ∈ found) :
    ∃ entry ∈ entries, ∃ own, check entry = .ok own ∧ f ∈ own := by
  obtain ⟨groups, hgroups, h⟩ := bind_eq_ok_iff.mp h
  obtain rfl := Except.ok.inj h
  obtain ⟨own, hown, hf⟩ := List.mem_flatten.mp hf
  obtain ⟨entry, hentry, hcheck⟩ := mem_of_mapM_eq_ok hgroups hown
  exact ⟨entry, hentry, own, hcheck, hf⟩

end Rule

end LineLint
