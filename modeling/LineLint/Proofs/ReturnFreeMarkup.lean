import LineLint.DocumentStructure
import LineLint.Proofs.BlankedLines
import LineLint.Proofs.CapturedText
import LineLint.Proofs.ReturnFreeRules
import LineLint.TagNesting
import LineLint.TagSpelling

/-!
# Rules of markup add no carriage return

Tags are read off lines with blanked comments, so that their names and values are parts of lines.
The fixes of markup put such parts, in lower case or in quotes, and names that are given with the
rules into the line.
-/

namespace LineLint

namespace MarkupComment

theorem return_not_mem_blankLine {inside : Bool} {line : Text} (h : '\r' ∉ line) :
    '\r' ∉ (blankLine inside line).1 := by
  intro hreturn
  obtain ⟨i, hi⟩ := List.mem_iff_getElem?.mp hreturn
  exact h (List.mem_of_getElem? (getElem?_blankLine hi (by decide)))

theorem returnFree_blankFrom {inside : Bool} {lines : List Text} (h : ReturnFree lines) :
    ReturnFree (blankFrom inside lines) := by
  induction lines generalizing inside with
  | nil => exact List.forall_mem_nil _
  | cons line rest ih =>
      obtain ⟨hline, hrest⟩ := List.forall_mem_cons.mp h
      exact List.forall_mem_cons.mpr ⟨return_not_mem_blankLine hline, ih hrest⟩

theorem returnFree_blank {lines : List Text} (h : ReturnFree lines) : ReturnFree (blank lines) :=
  returnFree_blankFrom h

end MarkupComment

namespace Tag

structure IsReturnFree (t : Tag) : Prop where
  name : '\r' ∉ t.name
  attributeName : ∀ a ∈ t.attributes, '\r' ∉ a.name
  value : ∀ a ∈ t.attributes, ∀ value ∈ a.value, '\r' ∉ value.text

theorem isReturnFree_of_mem_all {line : Text} (h : '\r' ∉ line) :
    ∀ t ∈ all line, t.IsReturnFree := by
  intro t ht
  obtain ⟨m, hm, rfl⟩ := List.mem_map.mp ht
  have hpart (name : String) : '\r' ∉ m.text name := fun hc =>
    h ((Pattern.isWithin_of_mem_findAll hm).text_subset name hc)
  refine ⟨hpart "name", fun a ha => ?_, fun a ha value hvalue => ?_⟩
  · obtain ⟨inner, hinner, rfl⟩ := List.mem_map.mp ha
    exact fun hc => hpart "attributes"
      ((Pattern.isWithin_of_mem_findAll hinner).text_subset "name" hc)
  · obtain ⟨inner, hinner, rfl⟩ := List.mem_map.mp ha
    obtain ⟨c, hc, rfl⟩ := Option.map_eq_some_iff.mp hvalue
    exact fun hmem => hpart "attributes"
      ((Pattern.isWithin_of_mem_findAll hinner).capture_subset hc hmem)

end Tag

theorem addsNoReturn_eachTagLine {spec : Spec} {info : RuleInfo}
    {check : Nat → Text → List Tag → List Finding}
    (h : ∀ i line tags, '\r' ∉ line → (∀ t ∈ tags, Tag.IsReturnFree t) →
      ∀ f ∈ check i line tags, f.AddsNoReturn) :
    (Rule.ofCheck spec info (eachTagLine check)).AddsNoReturn := by
  refine Rule.addsNoReturn_ofCheck fun lines hlines f hf => ?_
  obtain ⟨⟨⟨line, blanked⟩, i⟩, hentry, hcheck⟩ := List.mem_flatMap.mp hf
  obtain ⟨hline, hblanked⟩ :=
    List.of_mem_zip (List.mem_of_getElem? (List.mem_zipIdx_iff_getElem?.mp hentry))
  exact h i line _ (hlines line hline)
    (Tag.isReturnFree_of_mem_all (MarkupComment.returnFree_blank hlines blanked hblanked)) f hcheck

namespace DocumentStructure

theorem addsNoReturn_missingParts {s : Skeleton} {line : Text} (hline : '\r' ∉ line) :
    ∀ f ∈ missingParts s line, f.AddsNoReturn := by
  simp only [missingParts, List.forall_mem_append]
  refine ⟨⟨⟨?_, ?_⟩, ?_⟩, ?_⟩
  · exact fun f => Finding.addsNoReturn_of_mem_ite (by simp [Finding.AddsNoReturn, hline])
  all_goals exact fun f => Finding.addsNoReturn_of_mem_ite (Finding.addsNoReturn_of_none rfl)

theorem addsNoReturn_misplacedParts (s : Skeleton) :
    ∀ f ∈ misplacedParts s, f.AddsNoReturn := by
  simp only [misplacedParts, List.forall_mem_append]
  refine ⟨⟨?_, ?_⟩, ?_⟩
  · cases s.head with
    | none => exact List.forall_mem_nil _
    | some head =>
        simp only
        split_ifs
        · exact List.forall_mem_nil _
        · exact List.forall_mem_singleton.mpr (Finding.addsNoReturn_of_none rfl)
  all_goals
    split
    · exact fun f => Finding.addsNoReturn_of_mem_ite (Finding.addsNoReturn_of_none rfl)
    · exact List.forall_mem_nil _

theorem addsNoReturn : rule.AddsNoReturn := by
  refine Rule.addsNoReturn_ofCheck fun lines hlines f hf => ?_
  unfold check at hf
  split at hf
  · cases hf
  · rename_i first _
    rcases List.mem_append.mp hf with hf | hf
    · exact addsNoReturn_missingParts (not_mem_getD hlines first) f hf
    · exact addsNoReturn_misplacedParts _ f hf

end DocumentStructure

theorem TagNesting.addsNoReturn : rule.AddsNoReturn := by
  have hpair (stack : List Element) (rest : List Event) :
      ∀ f ∈ pair stack rest, f.replacement = none := by
    fun_induction pair stack rest with
    | case1 stack =>
        intro f hf
        obtain ⟨element, -, rfl⟩ := List.mem_map.mp hf
        rfl
    | case2 _ _ _ _ ih => exact ih
    | case3 _ _ _ _ _ ih => exact List.forall_mem_cons.mpr ⟨rfl, ih⟩
    | case4 _ _ _ _ _ _ _ _ ih => exact ih
    | case5 _ _ _ _ _ _ _ _ ih => exact List.forall_mem_cons.mpr ⟨rfl, ih⟩
  exact Rule.addsNoReturn_of_no_fix fun lines => hpair [] (events lines)

namespace TableStructure

theorem replacement_of_mem_step {i : Nat} {t : Tag} {s : State} :
    ∀ f ∈ (step i t s).2, f.replacement = none := by
  have hite {p : Prop} [Decidable p] {g : Finding} (hg : g.replacement = none) :
      ∀ f ∈ if p then [g] else [], f.replacement = none := fun f hf =>
    List.mem_singleton.mp (List.mem_ite_nil_right.mp hf).2 ▸ hg
  obtain ⟨tables, row, cells⟩ := s
  simp only [step]
  split
  · split_ifs
    · exact List.forall_mem_nil _
    · cases tables with
      | nil => exact List.forall_mem_nil _
      | cons table outer => exact hite rfl
  · split
    · cases tables with
      | nil => exact List.forall_mem_nil _
      | cons table outer =>
          simp only
          split
          · exact List.forall_mem_nil _
          · cases row with
            | none => exact List.forall_mem_nil _
            | some start => exact hite rfl
    · split_ifs <;> exact List.forall_mem_nil _

theorem addsNoReturn : rule.AddsNoReturn := by
  have hwalk (s : State) (tags : List (Nat × Tag)) : ∀ f ∈ walk s tags, f.replacement = none := by
    induction tags generalizing s with
    | nil => exact List.forall_mem_nil _
    | cons entry rest ih =>
        exact List.forall_mem_append.mpr ⟨replacement_of_mem_step, ih _⟩
  exact Rule.addsNoReturn_of_no_fix fun lines => hwalk {} _

end TableStructure

namespace TagCase

theorem return_not_mem_occurrence {t : Tag} (h : t.IsReturnFree) :
    ∀ o ∈ occurrences t, '\r' ∉ o.name := by
  simp only [occurrences, List.forall_mem_append]
  refine ⟨?_, ?_⟩
  · split_ifs
    · exact List.forall_mem_nil _
    · exact List.forall_mem_singleton.mpr h.name
  · split_ifs
    · exact List.forall_mem_nil _
    · intro o ho
      obtain ⟨a, ha, hfound⟩ := List.mem_filterMap.mp ho
      split_ifs at hfound
      exact Option.some.inj hfound ▸ h.attributeName a ha

theorem return_not_mem_lowered {line name : Text} (hline : '\r' ∉ line) (hname : '\r' ∉ name)
    (positions : List Nat) : '\r' ∉ lowered line name positions := by
  induction positions generalizing line with
  | nil => exact hline
  | cons p positions ih =>
      exact ih (Text.not_mem_splice hline (Text.return_not_mem_lower hname) _ _)

theorem addsNoReturn : rule.AddsNoReturn := by
  refine addsNoReturn_eachTagLine fun i line tags hline htags f hf => ?_
  obtain ⟨⟨kind, name⟩, hkind, rfl⟩ := List.mem_map.mp hf
  obtain ⟨o, ho, heq⟩ := List.mem_map.mp (List.mem_eraseDups.mp hkind)
  obtain ⟨t, ht, hoccurs⟩ := List.mem_flatMap.mp ho
  cases heq
  exact return_not_mem_lowered hline (return_not_mem_occurrence (htags t ht) o hoccurs) _

end TagCase

namespace AttributeQuotes

theorem return_not_mem_of_problem? {name value inner : Text} {problem : String}
    (hvalue : '\r' ∉ value) (h : problem? name value = some (problem, inner)) : '\r' ∉ inner := by
  unfold problem? at h
  split at h
  · cases h
  · simp only at h
    split_ifs at h
    cases h
    exact Text.not_mem_dropLast (Text.not_mem_drop hvalue 1)
  · split_ifs at h
    cases h
    exact hvalue

theorem addsNoReturn : rule.AddsNoReturn := by
  refine addsNoReturn_eachTagLine fun i line tags hline htags f hf => ?_
  obtain ⟨t, ht, hf⟩ := List.mem_flatMap.mp hf
  obtain ⟨a, ha, hf⟩ := List.mem_filterMap.mp hf
  obtain ⟨value, hvalue, hf⟩ := Option.bind_eq_some_iff.mp hf
  obtain ⟨⟨problem, inner⟩, hproblem, hf⟩ := Option.bind_eq_some_iff.mp hf
  obtain rfl := Option.some.inj hf
  have hinner := return_not_mem_of_problem? ((htags t ht).value a ha value hvalue) hproblem
  exact Text.not_mem_splice hline (by simp [hinner]) _ _

end AttributeQuotes

theorem return_not_mem_emptyAttribute {name : Text} (h : '\r' ∉ name) :
    '\r' ∉ emptyAttribute name := by
  simp [emptyAttribute, h]

theorem RequiredAttribute.addsNoReturn : rule.AddsNoReturn := by
  have hrequired : ∀ entry ∈ required, ∀ name ∈ entry.2, '\r' ∉ name := by decide
  refine addsNoReturn_eachTagLine fun i line tags hline _ f hf => ?_
  obtain ⟨t, -, hf⟩ := List.mem_flatMap.mp hf
  unfold checkTag at hf
  split_ifs at hf
  · cases hf
  · obtain ⟨name, hname, hf⟩ := List.mem_filterMap.mp hf
    split_ifs at hf
    obtain rfl := Option.some.inj hf
    refine Text.not_mem_splice hline (return_not_mem_emptyAttribute ?_) _ _
    cases hlookup : required.lookup t.lowerName with
    | none =>
        rw [hlookup] at hname
        cases hname
    | some names =>
        rw [hlookup] at hname
        obtain ⟨before, after, hentries, -⟩ := List.lookup_eq_some_iff.mp hlookup
        exact hrequired (t.lowerName, names) (by simp [hentries]) name hname

namespace ImageDimensions

theorem return_not_mem_complete {line : Text} (hline : '\r' ∉ line) (tags : List Tag) :
    '\r' ∉ complete line tags := by
  have hdimensions : ∀ name ∈ dimensions, '\r' ∉ name := by decide
  induction tags with
  | nil => exact hline
  | cons t rest ih =>
      refine Text.not_mem_splice ih (fun hc => ?_) _ _
      obtain ⟨name, hname, hc⟩ := List.mem_flatMap.mp hc
      unfold absent at hname
      split_ifs at hname
      · cases hname
      · exact return_not_mem_emptyAttribute (hdimensions name (List.mem_of_mem_filter hname)) hc

theorem addsNoReturn : rule.AddsNoReturn := by
  refine addsNoReturn_eachTagLine fun i line tags hline _ f hf => ?_
  simp only [check] at hf
  split at hf
  · cases hf
  · exact List.mem_singleton.mp hf ▸ return_not_mem_complete hline tags

end ImageDimensions

theorem EmptyElement.addsNoReturn : rule.AddsNoReturn := by
  refine Rule.addsNoReturn_of_no_fix fun lines f hf => ?_
  obtain ⟨i, blanked, -, hf⟩ := Rule.mem_eachLine.mp hf
  obtain ⟨m, -, hf⟩ := List.mem_filterMap.mp hf
  simp only at hf
  split_ifs at hf
  exact Option.some.inj hf ▸ rfl

namespace TagSpelling

variable {r : TagSpelling}

theorem mem_known_of_mem_similar {name : Text} {candidates : List Text}
    (h : r.similar name = .ok candidates) : ∀ candidate ∈ candidates, candidate ∈ r.known := by
  obtain ⟨scores, hscores, h⟩ := bind_eq_ok_iff.mp h
  obtain rfl := Except.ok.inj h
  intro best hbest
  obtain ⟨s, hs, rfl⟩ := List.mem_map.mp hbest
  obtain ⟨score, hmem, hsome⟩ := List.mem_filterMap.mp ((List.mergeSort_perm _ _).mem_iff.mp hs)
  obtain ⟨candidate, hcandidate, hrun⟩ := mem_of_mapM_eq_ok hscores hmem
  have hown : s.candidate = candidate := by
    unfold score? at hrun
    simp only at hrun
    split_ifs at hrun
    · cases hrun
      cases hsome
    · split at hrun
      · cases hrun
        cases hsome
        rfl
      · cases hrun
  rw [hown]
  exact List.mem_eraseDups.mp hcandidate

theorem return_not_mem_respell {line new : Text} (hline : '\r' ∉ line) (hnew : '\r' ∉ new)
    (tags : List Tag) (name : Text) : '\r' ∉ respell line tags name new := by
  induction tags with
  | nil => exact hline
  | cons t rest ih =>
      rw [respell, List.foldr_cons]
      split_ifs
      · exact Text.not_mem_splice ih hnew _ _
      · exact ih

theorem addsNoReturn (hknown : ∀ name ∈ r.known, '\r' ∉ name) : r.rule.AddsNoReturn := by
  refine Rule.addsNoReturn_ofFindings fun lines hlines found hfound f hf => ?_
  obtain ⟨⟨⟨line, blanked⟩, i⟩, hentry, own, hown, hf⟩ := Rule.mem_flatten_of_mapM hfound hf
  have hline : '\r' ∉ line := hlines.of_mem_zip_zipIdx hentry
  obtain ⟨name, -, named, hnamed, hf⟩ := Rule.mem_flatten_of_mapM hown hf
  obtain ⟨candidates, hsimilar, hnamed⟩ := bind_eq_ok_iff.mp hnamed
  cases candidates with
  | nil =>
      cases hnamed
      cases hf
  | cons best others =>
      cases hnamed
      obtain rfl := List.mem_singleton.mp hf
      have hbest : best ∈ r.known := mem_known_of_mem_similar hsimilar best List.mem_cons_self
      exact return_not_mem_respell hline (hknown best hbest) _ name

end TagSpelling

end LineLint
