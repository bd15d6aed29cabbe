import LineLint.Proofs.TagContents
import LineLint.Proofs.TagLineReports
import LineLint.Proofs.WidenedTags

/-!
# Completed images

The dimensions that an image lacks are put in directly behind the name of its tag. The line keeps
its comments and its tags: each image that lacked a dimension has it as its first attribute, with
an empty value, and nothing else that a tag says changes. So the line is not reported again, and
the reports on all other lines stay as they are.
-/

namespace LineLint

theorem Text.splice_nil (t : Text) (i : Nat) : splice t i i [] = t := by
  rw [splice, List.append_nil, List.take_append_drop]

theorem Text.hyphen_mem_lowerFrom {before t : Text} (h : '-' ∈ t) : '-' ∈ lowerFrom before t := by
  induction t generalizing before with
  | nil => cases h
  | cons c t ih =>
      rw [lowerFrom]
      rcases List.mem_cons.mp h with rfl | h
      · refine List.mem_append_left _ ?_
        rw [if_neg (by decide), if_neg (by decide)]
        decide
      · exact List.mem_append_right _ (ih h)

namespace ImageDimensions

open WrittenTag (IsInsertable isInsertable_flatMap isTransparent_of_inner isTransparent_quotes
  isNameChar isInner ending)

/-- The dimensions that a tag with this content lacks, if it is a start tag of an image. -/
def lacking (c : TagContent) : List Text :=
  if c.isClosing = true ∨ c.name.lower ≠ "img".toList then []
  else dimensions.filter fun name => ∀ a ∈ c.attributes, a.1.lower ≠ name

/-- The content with what it lacks, each first dimension with an empty value in double quotes. -/
def completed (c : TagContent) : TagContent :=
  { c with attributes := (lacking c).map (fun name => (name, some "\"\"".toList)) ++ c.attributes }

section Contents

theorem isNone_attribute? (t : Tag) (name : Text) :
    (t.attribute? name).isNone = decide (∀ a ∈ t.content.attributes, a.1.lower ≠ name) := by
  rw [Bool.eq_iff_iff, Option.isNone_iff_eq_none, decide_eq_true_iff, Tag.attribute?,
    List.find?_eq_none]
  simp [Tag.content, Attribute.content]

theorem absent_eq_lacking (t : Tag) : absent t = lacking t.content := by
  have hfilter : (dimensions.filter fun name => (t.attribute? name).isNone) =
      dimensions.filter fun name => ∀ a ∈ t.content.attributes, a.1.lower ≠ name :=
    List.filter_congr fun name _ => isNone_attribute? t name
  have hother : (t.lowerName != "img".toList || t.isClosing) = true ↔
      t.content.isClosing = true ∨ t.content.name.lower ≠ "img".toList := by
    rw [Bool.or_eq_true, bne_iff_ne, or_comm]
    rfl
  rw [absent, lacking, ← hfilter]
  exact if_congr hother rfl rfl

theorem lacking_subset (c : TagContent) : lacking c ⊆ dimensions := by
  unfold lacking
  split_ifs
  · exact List.nil_subset _
  · exact List.filter_subset_self _

theorem lower_of_mem_dimensions : ∀ name ∈ dimensions, name.lower = name := by decide

theorem lacking_completed (c : TagContent) : lacking (completed c) = [] := by
  by_cases hother : c.isClosing = true ∨ c.name.lower ≠ "img".toList
  · exact if_pos hother
  · refine (if_neg hother).trans (List.filter_eq_nil_iff.mpr fun name hname => ?_)
    rw [decide_eq_true_iff]
    intro hnone
    have hlacked : name ∈ lacking c := by
      rw [lacking, if_neg hother, List.mem_filter, decide_eq_true_iff]
      exact ⟨hname, fun a ha => hnone a (List.mem_append_right _ ha)⟩
    have hgained : (name, some "\"\"".toList) ∈ (completed c).attributes :=
      List.mem_append_left _ (List.mem_map_of_mem hlacked)
    exact hnone _ hgained (lower_of_mem_dimensions name hname)

end Contents

section Tags

def gain (w : WrittenTag) : Text := (lacking w.content).flatMap emptyAttribute

theorem isInsertable_emptyAttribute {name : Text} (hname : ∀ c ∈ name, isInner c = true) :
    IsInsertable (emptyAttribute name) := by
  have hinner : ∀ c ∈ ' ' :: name ++ ['='], isInner c = true := by
    simpa using ⟨rfl, fun c hc => hc.elim (hname c) fun h => h ▸ rfl⟩
  have hsplit : emptyAttribute name = (' ' :: name ++ ['=']) ++ "\"\"".toList := by
    simp [emptyAttribute]
  refine ⟨hsplit ▸ (isTransparent_of_inner hinner).append isTransparent_quotes, ?_⟩
  rintro _ ⟨⟩
  rfl

theorem isInsertable_gain (w : WrittenTag) : IsInsertable (gain w) := by
  have hinner : ∀ name ∈ dimensions, name.all isInner = true := by decide
  exact isInsertable_flatMap fun name hname =>
    isInsertable_emptyAttribute (List.all_eq_true.mp (hinner name (lacking_subset _ hname)))

theorem content_widen (w : WrittenTag) : (w.widen (gain w)).content = completed w.content := by
  have hname : ∀ name ∈ dimensions, name ≠ [] ∧ name.all Tag.isAttributeChar = true := by decide
  have hattributes : Tag.attributesOf (gain w ++ w.body) =
      (lacking w.content).map (fun name => (name, some "\"\"".toList)) ++ Tag.attributesOf w.body :=
    Tag.attributesOf_flatMap_append (fun name h =>
      (hname name (lacking_subset _ h)).imp_right List.all_eq_true.mp) w.body
  rw [WrittenTag.content, WrittenTag.widen, hattributes]
  rfl

/-- The tags of the line that is read with the gains, and what they say. -/
theorem contents_tagsFrom_widen (ps : List TagPiece) (position position' : Nat) :
    (TagPiece.tagsFrom position (ps.map (TagPiece.widen gain))).map Tag.content =
      (TagPiece.tagsFrom position' ps).map fun t => completed t.content := by
  induction ps generalizing position position' with
  | nil => rfl
  | cons p ps ih =>
      cases p with
      | plain c => exact ih _ _
      | tag w =>
          refine congrArg₂ List.cons ?_ (ih _ _)
          change ((w.widen (gain w)).tagAt position).content = completed (w.tagAt position').content
          rw [WrittenTag.content_tagAt, WrittenTag.content_tagAt, content_widen]

end Tags

section Lines

open MarkupComment

variable {line : Text} {inside : Bool}

/-- The name of an image ends with a character that is in no mark of a comment. -/
theorem exists_last_of_lacking {w : WrittenTag} (hw : w.IsWellFormed)
    (hlacking : lacking w.content ≠ []) :
    ∃ front c, w.name = front ++ [c] ∧ (∀ inside, c ∉ mark inside) ∧ c ≠ ' ' := by
  have hlower : w.name.lower = "img".toList := by
    by_contra hne
    exact hlacking (if_pos (Or.inr hne))
  obtain ⟨front, c, hlast⟩ : ∃ front c, w.name = front ++ [c] :=
    ⟨_, _, (List.dropLast_append_getLast hw.name_ne_nil).symm⟩
  have hmem : c ∈ w.name := hlast ▸ List.mem_append_right _ (List.mem_singleton_self c)
  have hhyphen : c ≠ '-' := by
    rintro rfl
    have himg : '-' ∈ "img".toList := hlower ▸ Text.hyphen_mem_lowerFrom hmem
    exact absurd himg (by decide)
  have hword : isWordChar c = true := by
    simpa [isNameChar, hhyphen] using hw.name c hmem
  have hmarks : ∀ inside, (mark inside).all (fun x => !isWordChar x) = true := by decide
  refine ⟨front, c, hlast, fun inside hc => ?_, ?_⟩
  · have hnot := List.all_eq_true.mp (hmarks inside) c hc
    rw [hword] at hnot
    exact Bool.false_ne_true hnot
  · rintro rfl
    exact Bool.false_ne_true hword

theorem not_mem_mark_of_mem_gain (w : WrittenTag) : ∀ c ∈ gain w, c ∉ mark false := by
  have hnone : ∀ name ∈ dimensions,
      (emptyAttribute name).all (fun c => c ∉ mark false) = true := by decide
  intro c hc
  obtain ⟨name, hname, hc⟩ := List.mem_flatMap.mp hc
  exact of_decide_eq_true (List.all_eq_true.mp (hnone name (lacking_subset _ hname)) c hc)

/-- What a tag lacks is put in behind its name, and is shown there. -/
theorem blankLine_splice_gain {front rest : Text} {after : Bool} {w : WrittenTag}
    (hw : w.IsWellFormed) (h : blankLine inside line = (front ++ w.text ++ rest, after)) :
    blankLine inside (Text.splice line (w.tagAt front.length).nameStop
        (w.tagAt front.length).nameStop (gain w)) =
      (front ++ (w.widen (gain w)).text ++ rest, after) := by
  by_cases hlacking : lacking w.content = []
  · have hnone : gain w = [] := by rw [gain, hlacking]; rfl
    have hsame : w.widen [] = w := rfl
    rw [hnone, Text.splice_nil, hsame]
    exact h
  · obtain ⟨name, c, hname, hmark, hblank⟩ := exists_last_of_lacking hw hlacking
    have hshown : front ++ w.text ++ rest =
        (front ++ (w.opening ++ name)) ++ c :: (w.body ++ ending w.isSelfClosing ++ rest) := by
      simp [WrittenTag.text, hname]
    have hplace : (front ++ (w.opening ++ name)).length + 1 =
        (w.tagAt front.length).nameStop := by
      simp [Tag.nameStop, WrittenTag.tagAt, hname]
      omega
    rw [hshown] at h
    have hinsert := blankLine_insert hmark hblank (not_mem_mark_of_mem_gain w) h
    rw [hplace] at hinsert
    refine hinsert.trans (congrArg (·, after) ?_)
    simp [WrittenTag.text, WrittenTag.widen, WrittenTag.opening, hname]

theorem blankLine_complete {front : Text} {after : Bool} {ps : List TagPiece}
    (hps : TagPiece.IsReading ps)
    (h : blankLine inside line = (front ++ TagPiece.textOf ps, after)) :
    blankLine inside (complete line (TagPiece.tagsFrom front.length ps)) =
      (front ++ TagPiece.textOf (ps.map (TagPiece.widen gain)), after) := by
  induction ps generalizing front with
  | nil => exact h
  | cons p ps ih =>
      rw [TagPiece.textOf_cons, ← List.append_assoc] at h
      rw [List.map_cons, TagPiece.textOf_cons, ← List.append_assoc]
      cases p with
      | plain c =>
          have hrest := ih hps.2 h
          rw [List.length_append] at hrest
          exact hrest
      | tag w =>
          have hrest := ih hps.2 h
          rw [List.length_append] at hrest
          have hgain : (absent (w.tagAt front.length)).flatMap emptyAttribute = gain w := by
            rw [absent_eq_lacking, WrittenTag.content_tagAt]
            rfl
          refine Eq.trans ?_ (blankLine_splice_gain hps.1 hrest)
          rw [← hgain]
          rfl

end Lines

section Reports

open MarkupComment

variable {front back : List Text} {line new : Text}

theorem of_mem_check {i : Nat} {tags : List Tag} {f : Finding} (hf : f ∈ check i line tags) :
    f.index = i ∧ f.replacement = some (complete line tags) := by
  simp only [check] at hf
  split at hf
  · cases hf
  · obtain rfl := List.mem_singleton.mp hf
    exact ⟨rfl, rfl⟩

theorem check_eq_nil {tags : List Tag} (h : ∀ t ∈ tags, absent t = []) (i : Nat) (line : Text) :
    check i line tags = [] := by
  have hnone : (tags.map absent).find? (fun names => !names.isEmpty) = none := by
    rw [List.find?_eq_none]
    intro names hnames
    obtain ⟨t, ht, rfl⟩ := List.mem_map.mp hnames
    rw [h t ht]
    exact Bool.false_ne_true
  rw [check, hnone]

/-- With the completed line in the place of the old one, the comments go on behind it as before, and
its tags are those of the old line, completed. -/
theorem contents_complete (inside : Bool) (line : Text) :
    let tags := Tag.all (blankLine inside line).1
    (blankLine inside (complete line tags)).2 = (blankLine inside line).2 ∧
      (Tag.all (blankLine inside (complete line tags)).1).map Tag.content =
        tags.map fun t => completed t.content := by
  obtain ⟨ps, hps, htext⟩ := TagPiece.exists_isReading (blankLine inside line).1
  have hblank : blankLine inside line = ([] ++ TagPiece.textOf ps, (blankLine inside line).2) := by
    rw [htext]
    rfl
  have hcompleted := blankLine_complete hps hblank
  rw [List.length_nil, ← TagPiece.all_textOf hps, htext, List.nil_append] at hcompleted
  refine ⟨by rw [hcompleted], ?_⟩
  rw [hcompleted, TagPiece.all_textOf (hps.map_widen isInsertable_gain), ← htext,
    TagPiece.all_textOf hps]
  exact contents_tagsFrom_widen ps 0 0

/-- A completed line is not reported, and the reports on all other lines stay as they are. -/
theorem run_rule_complete {ds : List Diagnostic} (hrun : rule.run (front ++ line :: back) = .ok ds)
    (hnew : new = complete line (Tag.all (blankLine (insideAfter false front) line).1)) :
    rule.run (front ++ new :: back) = .ok (ds.filter fun d => d.line ≠ front.length + 1) := by
  obtain ⟨hafter, hcontents⟩ := contents_complete (insideAfter false front) line
  rw [← hnew] at hafter hcontents
  have hnone :
      check front.length new (Tag.all (blankLine (insideAfter false front) new).1) = [] := by
    refine check_eq_nil (fun t ht => ?_) _ _
    have hcontent := hcontents ▸ List.mem_map_of_mem (f := Tag.content) ht
    obtain ⟨old, -, hold⟩ := List.mem_map.mp hcontent
    rw [absent_eq_lacking, ← hold, lacking_completed]
  obtain ⟨found, hfound, hreports⟩ := bind_eq_ok_iff.mp hrun
  obtain rfl := Except.ok.inj hfound
  rw [eachTagLine_append_cons] at hreports
  change (eachTagLine check (front ++ new :: back)).mapM _ = _
  rw [eachTagLine_append_cons, hnone, hafter, List.nil_append]
  refine Spec.mapM_report_of_others (fun f hf => ?_) (fun f hf => (of_mem_check hf).1)
    (fun f hf => ?_) hreports
  · obtain ⟨i, other, hother, hcheck⟩ := mem_eachTagLine hf
    rw [(of_mem_check hcheck).1]
    exact Nat.ne_of_lt (List.getElem?_eq_some_iff.mp hother).1
  · obtain ⟨⟨⟨other, _⟩, i⟩, hentry, hcheck⟩ := List.mem_flatMap.mp hf
    rw [(of_mem_check hcheck).1]
    exact Nat.ne_of_gt (List.le_snd_of_mem_zipIdx hentry)

def tagContents (lines : List Text) (i : Nat) : List TagContent :=
  (Tag.all ((blank lines).getD i [])).map Tag.content

/-- Every report of the rule is settled by its replacement: the line is not reported again, the
reports on all other lines stay as they are, and the tags of the line are those that it had, each
one completed. -/
theorem exists_run_rule_settled (lines : List Text) :
    ∃ ds, rule.run lines = .ok ds ∧ ∀ d ∈ ds, ∃ (i : Nat) (new : Text),
      i < lines.length ∧ d.line = i + 1 ∧ d.replacement = some new ∧
        rule.run (lines.set i new) = .ok (ds.filter fun e => e.line ≠ d.line) ∧
        tagContents (lines.set i new) i = (tagContents lines i).map completed := by
  obtain ⟨ds, hrun⟩ := isSound.runs lines
  refine ⟨ds, hrun, fun d hd => ?_⟩
  obtain ⟨f, hf, hreport⟩ := (Rule.mem_iff_of_run_ofCheck hrun).mp hd
  obtain ⟨hat, -, -, -, hreplacement⟩ := Spec.report_eq_ok hreport
  obtain ⟨i, line, hline, hcheck⟩ := mem_eachTagLine hf
  obtain ⟨hindex, hcomplete⟩ := of_mem_check hcheck
  rw [hindex] at hat
  rw [hcomplete] at hreplacement
  obtain ⟨hlt, hget⟩ := List.getElem?_eq_some_iff.mp hline
  -- the reported line, with those before and behind it
  obtain ⟨front, back, rfl, rfl⟩ :
      ∃ front back, lines = front ++ line :: back ∧ front.length = i := by
    refine ⟨lines.take i, lines.drop (i + 1), ?_, List.length_take_of_le (Nat.le_of_lt hlt)⟩
    rw [← hget, List.getElem_cons_drop, List.take_append_drop]
  rw [getD_blank_append_cons] at hreplacement
  refine ⟨front.length, _, hlt, hat, hreplacement, ?_⟩
  rw [List.set_append_right _ _ (Nat.le_refl _), Nat.sub_self, List.set_cons_zero, hat]
  refine ⟨run_rule_complete hrun rfl, ?_⟩
  rw [tagContents, tagContents, getD_blank_append_cons, getD_blank_append_cons,
    (contents_complete (insideAfter false front) line).2, List.map_map]
  rfl

example : (rule.run ["<p>".toList, "<img alt=\">\">".toList]).map
    (·.map fun d => (d.line, d.replacement)) =
      .ok [(2, some "<img width=\"\" height=\"\" alt=\">\">".toList)] := by
  decide +kernel

end Reports

end ImageDimensions

end LineLint
