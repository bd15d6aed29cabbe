import LineLint.Proofs.BlankedLines
import LineLint.Proofs.RuleReports
import LineLint.Proofs.SoundMarkup
import LineLint.Proofs.SpacingReports

/-!
# Reports about lines of tags

A check of single lines and their tags finds something about one line, between what it finds about
the lines before and behind it. Another line that ends inside a comment just when the old one does
leaves the others as they are, and so the reports on them.
-/

namespace LineLint

open MarkupComment

variable {front back lines : List Text} {line new : Text}

theorem MarkupComment.getD_blank_append_cons (front back : List Text) (line : Text) :
    (blank (front ++ line :: back)).getD front.length [] =
      (blankLine (insideAfter false front) line).1 := by
  rw [blank, blankFrom_append, blankFrom_cons, List.getD_eq_getElem?_getD,
    List.getElem?_append_right (Nat.le_of_eq (length_blankFrom false front)), length_blankFrom,
    Nat.sub_self]
  rfl

def findingsBehind (check : Nat → Text → List Tag → List Finding) (index : Nat) (inside : Bool)
    (back : List Text) : List Finding :=
  ((back.zip (blankFrom inside back)).zipIdx index).flatMap
    fun ((line, blanked), index) => check index line (Tag.all blanked)

theorem eachTagLine_append_cons (check : Nat → Text → List Tag → List Finding)
    (front back : List Text) (line : Text) :
    eachTagLine check (front ++ line :: back) =
      eachTagLine check front ++
        (check front.length line (Tag.all (blankLine (insideAfter false front) line).1) ++
          findingsBehind check (front.length + 1) (blankLine (insideAfter false front) line).2
            back) := by
  simp only [eachTagLine, findingsBehind, blank, blankFrom_append, blankFrom_cons]
  rw [List.zip_append (length_blankFrom false front).symm, List.zipIdx_append, List.flatMap_append]
  simp [length_blankFrom]

theorem mem_eachTagLine {check : Nat → Text → List Tag → List Finding} {f : Finding}
    (hf : f ∈ eachTagLine check lines) :
    ∃ i line, lines[i]? = some line ∧ f ∈ check i line (Tag.all ((blank lines).getD i [])) := by
  obtain ⟨⟨⟨line, blanked⟩, i⟩, hentry, hcheck⟩ := List.mem_flatMap.mp hf
  obtain ⟨hline, hblanked⟩ := List.getElem?_zip_eq_some.mp (List.mem_zipIdx_iff_getElem?.mp hentry)
  refine ⟨i, line, hline, ?_⟩
  rwa [List.getD_eq_getElem?_getD, hblanked]

/-- Without what is found in one line, the reports on all others stay as they are, whatever that
line is. -/
theorem Spec.mapM_report_of_others {spec : Spec} {first own last : List Finding}
    {ds : List Diagnostic}
    (hfirst : ∀ f ∈ first, f.index ≠ front.length) (hown : ∀ f ∈ own, f.index = front.length)
    (hlast : ∀ f ∈ last, f.index ≠ front.length)
    (hreports : (first ++ (own ++ last)).mapM (spec.report (front ++ line :: back)) = .ok ds) :
    (first ++ last).mapM (spec.report (front ++ new :: back)) =
      .ok (ds.filter fun d => d.line ≠ front.length + 1) := by
  obtain ⟨us, rest, hus, hrest, rfl⟩ := mapM_append_eq_ok_iff.mp hreports
  obtain ⟨vs, ws, hvs, hws, rfl⟩ := mapM_append_eq_ok_iff.mp hrest
  have hkept {fs : List Finding} {ds : List Diagnostic} (hfs : ∀ f ∈ fs, f.index ≠ front.length)
      (hreports : fs.mapM (spec.report (front ++ line :: back)) = .ok ds) :
      ds.filter (fun d => d.line ≠ (front.length + 1 : Int)) = ds := by
    refine List.filter_eq_self.mpr fun d hd => decide_eq_true ?_
    obtain ⟨f, hf, hreport⟩ := mem_of_mapM_eq_ok hreports hd
    have hne := hfs f hf
    rw [(Spec.report_eq_ok hreport).1]
    omega
  have hdropped : vs.filter (fun d => d.line ≠ (front.length + 1 : Int)) = [] := by
    refine List.filter_eq_nil_iff.mpr fun d hd => ?_
    obtain ⟨f, hf, hreport⟩ := mem_of_mapM_eq_ok hvs hd
    rw [(Spec.report_eq_ok hreport).1, hown f hf]
    simp
  rw [List.filter_append, List.filter_append, hkept hfirst hus, hdropped, hkept hlast hws,
    List.nil_append, mapM_append_eq_ok_iff]
  refine ⟨us, ws, ?_, ?_, rfl⟩
  · rw [← hus]
    exact mapM_congr fun f hf => Spec.report_of_ne (hfirst f hf) new line
  · rw [← hws]
    exact mapM_congr fun f hf => Spec.report_of_ne (hlast f hf) new line

end LineLint
