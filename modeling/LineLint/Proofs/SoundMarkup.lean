import LineLint.DocumentStructure
import LineLint.Proofs.ScannedLines
import LineLint.Proofs.SoundRules
import LineLint.TagNesting
import LineLint.TagSpelling

/-!
# Sound rules of markup

The rules for markup are sound. They look for tags in lines whose comments are blanked, of which
there are as many as lines, and whatever line an open element or table is remembered by lies in the
text.
-/

namespace LineLint

namespace MarkupComment

theorem length_blankFrom (inside : Bool) (lines : List Text) :
    (blankFrom inside lines).length = lines.length := by
  induction lines generalizing inside with
  | nil => rfl
  | cons line rest ih => simp [blankFrom, ih]

@[simp] theorem length_blank (lines : List Text) : (blank lines).length = lines.length :=
  length_blankFrom false lines

theorem lt_of_mem_zipIdx_blank {lines : List Text} {blanked : Text} {i : Nat}
    (h : (blanked, i) ∈ (blank lines).zipIdx) : i < lines.length := by
  rw [← length_blank lines]
  exact (List.getElem?_eq_some_iff.mp (List.mem_zipIdx_iff_getElem?.mp h)).1

end MarkupComment

theorem Text.splice_ne_nil {t new : Text} {start stop : Nat} (h : new ≠ []) :
    t.splice start stop new ≠ [] := by
  simp [splice, h]

theorem Text.lower_ne_nil {t : Text} (h : t ≠ []) : t.lower ≠ [] := by
  obtain ⟨c, rest, rfl⟩ := List.exists_cons_of_ne_nil h
  rw [lower, lowerFrom]
  split_ifs
  all_goals simp

theorem isSound_eachTagLine {spec : Spec} {info : RuleInfo}
    {check : Nat → Text → List Tag → List Finding}
    (h : ∀ lines : List Text, ∀ i < lines.length, ∀ line tags, ∀ f ∈ check i line tags,
      f.IsSound spec lines) :
    (Rule.ofCheck spec info (eachTagLine check)).IsSound := by
  refine Rule.isSound_ofCheck fun lines f hf => ?_
  obtain ⟨⟨⟨line, blanked⟩, i⟩, hentry, hcheck⟩ := List.mem_flatMap.mp hf
  have hline := (standFor_zip lines _).getElem?_of_mem_zipIdx hentry
  exact h lines i (List.getElem?_eq_some_iff.mp hline).1 line _ f hcheck

namespace DocumentStructure

structure Skeleton.IsWithin (s : Skeleton) (bound : Nat) : Prop where
  first : s.first < bound
  html : ∀ i ∈ s.html, i < bound
  head : ∀ i ∈ s.head, i < bound
  body : ∀ i ∈ s.body, i < bound
  headEnd : ∀ i ∈ s.headEnd, i < bound

theorem firstLine?_lt {lines : List Text} {p : Pattern} {i : Nat}
    (h : i ∈ firstLine? lines p) : i < lines.length :=
  (List.findIdx?_eq_some_iff_getElem.mp h).1

theorem skeleton_isWithin {first : Nat} {blanked : List Text} (h : first < blanked.length) :
    (skeleton first blanked).IsWithin blanked.length where
  first := h
  html _ := firstLine?_lt
  head _ := firstLine?_lt
  body _ := firstLine?_lt
  headEnd _ := firstLine?_lt

variable {lines : List Text} {i : Nat} (hlt : i < lines.length)
include hlt

theorem isSound_missing (element hint : String) :
    (missing i element hint).IsSound .documentStructure lines :=
  Finding.isSound_of_lt hlt (Finding.fills_of_hint (by simp [missing]) rfl) (by simp [missing])

theorem isSound_misplaced (message hint : String) :
    (misplaced i message hint).IsSound .documentStructure lines :=
  Finding.isSound_of_lt hlt
    (Finding.fills_of_own_texts (by simp [misplaced]) (by simp [misplaced])) (by simp [misplaced])

omit hlt

variable {s : Skeleton} (h : s.IsWithin lines.length)
include h

theorem isSound_missingParts (line : Text) :
    ∀ f ∈ missingParts s line, f.IsSound .documentStructure lines := by
  have hhtml : s.html.getD s.first < lines.length := by
    cases hstart : s.html with
    | none => exact h.first
    | some i => exact h.html i hstart
  have hbody : (s.headEnd.or s.html).getD s.first < lines.length := by
    cases hstart : s.headEnd with
    | none => exact hhtml
    | some i => exact h.headEnd i hstart
  simp only [missingParts, List.forall_mem_append]
  refine ⟨⟨⟨?_, ?_⟩, ?_⟩, ?_⟩
  · refine fun f => Finding.isSound_of_mem_ite fun _ => ?_
    exact Finding.isSound_of_lt h.first (Finding.fills_of_hint (by simp [missing]) rfl) (by simp)
  · exact fun f => Finding.isSound_of_mem_ite fun _ => isSound_missing h.first _ _
  · exact fun f => Finding.isSound_of_mem_ite fun _ => isSound_missing hhtml _ _
  · exact fun f => Finding.isSound_of_mem_ite fun _ => isSound_missing hbody _ _

theorem isSound_misplacedParts :
    ∀ f ∈ misplacedParts s, f.IsSound .documentStructure lines := by
  simp only [misplacedParts, List.forall_mem_append]
  refine ⟨⟨?_, ?_⟩, ?_⟩
  · cases hhead : s.head with
    | none => exact List.forall_mem_nil _
    | some head =>
        simp only
        split_ifs
        · exact List.forall_mem_nil _
        · exact List.forall_mem_singleton.mpr (isSound_missing (h.head head hhead) _ _)
  · split
    · rename_i doctype html _ hhtml
      exact fun f => Finding.isSound_of_mem_ite fun _ => isSound_misplaced (h.html html hhtml) _ _
    · exact List.forall_mem_nil _
  · split
    · rename_i head body _ hbody
      exact fun f => Finding.isSound_of_mem_ite fun _ => isSound_misplaced (h.body body hbody) _ _
    · exact List.forall_mem_nil _

omit h

theorem isSound : rule.IsSound := by
  refine Rule.isSound_ofCheck fun lines f hf => ?_
  unfold check at hf
  split at hf
  · cases hf
  · rename_i first hfirst
    have hlt : first < lines.length := (List.findIdx?_eq_some_iff_getElem.mp hfirst).1
    have hwithin : (skeleton first (MarkupComment.blank lines)).IsWithin lines.length := by
      rw [← MarkupComment.length_blank lines]
      exact skeleton_isWithin (by rwa [MarkupComment.length_blank])
    rcases List.mem_append.mp hf with hf | hf
    · exact isSound_missingParts hwithin _ f hf
    · exact isSound_misplacedParts hwithin f hf

end DocumentStructure

namespace TagNesting

theorem index_lt_of_mem_events {lines : List Text} {e : Event} (h : e ∈ events lines) :
    e.index < lines.length := by
  obtain ⟨⟨blanked, i⟩, hentry, htag⟩ := List.mem_flatMap.mp h
  obtain ⟨t, -, hevent⟩ := List.mem_filterMap.mp htag
  unfold eventOf? at hevent
  split_ifs at hevent
  obtain rfl := Option.some.inj hevent
  exact MarkupComment.lt_of_mem_zipIdx_blank hentry

/-- The elements that are left open stand on lines of the text, since the tags do. -/
theorem isSound_pair {lines : List Text} {stack : List Element} {rest : List Event}
    (hstack : ∀ element ∈ stack, element.index < lines.length)
    (hevents : ∀ e ∈ rest, e.index < lines.length) :
    ∀ f ∈ pair stack rest, f.IsSound .tagClosing lines := by
  induction rest generalizing stack with
  | nil =>
      intro f hf
      obtain ⟨element, helement, rfl⟩ := List.mem_map.mp hf
      have hmem : element ∈ stack := List.mem_reverse.mp (List.mem_of_mem_filter helement)
      exact Finding.isSound_of_lt (hstack element hmem) (Finding.fills_of_fields rfl) (by simp)
  | cons e rest ih =>
      obtain ⟨hlt, hrest⟩ := List.forall_mem_cons.mp hevents
      have hown {f : Finding} (hindex : f.index = e.index) (hfills : f.Fills .tagClosing)
          (hne : f.replacement ≠ some []) : f.IsSound .tagClosing lines :=
        Finding.isSound_of_lt (hindex ▸ hlt) hfills hne
      rw [pair]
      split_ifs with hopening
      · exact ih (List.forall_mem_cons.mpr ⟨hlt, hstack⟩) hrest
      · split
        · refine List.forall_mem_cons.mpr ⟨hown rfl ?_ (by simp [unexpected]), ih hstack hrest⟩
          exact Finding.fills_of_own_texts (by simp [unexpected]) (by simp [unexpected])
        · rename_i opened outer hopen
          have hsuffix : opened :: outer <:+ stack := hopen ▸ List.dropWhile_suffix _
          have houter : ∀ element ∈ outer, element.index < lines.length := fun element hmem =>
            hstack element (hsuffix.subset (List.mem_cons_of_mem _ hmem))
          split_ifs
          · exact ih houter hrest
          · refine List.forall_mem_cons.mpr ⟨hown rfl ?_ (by simp [mismatched]), ih houter hrest⟩
            exact Finding.fills_of_own_texts (by simp [mismatched]) (by simp [mismatched])

theorem isSound : rule.IsSound :=
  Rule.isSound_ofCheck fun _ =>
    isSound_pair (List.forall_mem_nil _) fun _ => index_lt_of_mem_events

end TagNesting

namespace TableStructure

structure State.IsWithin (s : State) (bound : Nat) : Prop where
  tables : ∀ table ∈ s.tables, table.index < bound
  row : ∀ i ∈ s.row, i < bound

variable {lines : List Text} {s : State} {i : Nat}

theorem isSound_emptyTable (hlt : i < lines.length) :
    (emptyTable i).IsSound .tableStructure lines :=
  Finding.isSound_of_lt hlt (Finding.fills_of_hint (by simp [emptyTable]) rfl)
    (by simp [emptyTable])

theorem isSound_emptyRow (hlt : i < lines.length) :
    (emptyRow i).IsSound .tableStructure lines :=
  Finding.isSound_of_lt hlt (Finding.fills_of_hint (by simp [emptyRow]) rfl) (by simp [emptyRow])

theorem step_isSound (h : s.IsWithin lines.length) (hlt : i < lines.length) (t : Tag) :
    (step i t s).1.IsWithin lines.length ∧
      ∀ f ∈ (step i t s).2, f.IsSound .tableStructure lines := by
  obtain ⟨tables, row, cells⟩ := s
  obtain ⟨htables, hrow⟩ := h
  simp only [step]
  split
  · split_ifs
    · exact ⟨⟨List.forall_mem_cons.mpr ⟨hlt, htables⟩, hrow⟩, List.forall_mem_nil _⟩
    · cases tables with
      | nil => exact ⟨⟨htables, hrow⟩, List.forall_mem_nil _⟩
      | cons table outer =>
          obtain ⟨htable, houter⟩ := List.forall_mem_cons.mp htables
          exact ⟨⟨houter, hrow⟩, fun f => Finding.isSound_of_mem_ite fun _ =>
            isSound_emptyTable htable⟩
  · split
    · cases tables with
      | nil => exact ⟨⟨htables, hrow⟩, List.forall_mem_nil _⟩
      | cons table outer =>
          obtain ⟨htable, houter⟩ := List.forall_mem_cons.mp htables
          simp only
          split
          · refine ⟨⟨List.forall_mem_cons.mpr ⟨htable, houter⟩, ?_⟩, List.forall_mem_nil _⟩
            rintro _ ⟨⟩
            exact hlt
          · cases row with
            | none => exact ⟨⟨htables, hrow⟩, List.forall_mem_nil _⟩
            | some start =>
                refine ⟨⟨htables, by rintro _ ⟨⟩⟩, fun f => ?_⟩
                exact Finding.isSound_of_mem_ite fun _ => isSound_emptyRow (hrow start rfl)
    · split_ifs
      · exact ⟨⟨htables, hrow⟩, List.forall_mem_nil _⟩
      · exact ⟨⟨htables, hrow⟩, List.forall_mem_nil _⟩

theorem isSound_walk {tags : List (Nat × Tag)} (h : s.IsWithin lines.length)
    (htags : ∀ entry ∈ tags, entry.1 < lines.length) :
    ∀ f ∈ walk s tags, f.IsSound .tableStructure lines := by
  induction tags generalizing s with
  | nil => exact List.forall_mem_nil _
  | cons entry rest ih =>
      obtain ⟨index, t⟩ := entry
      obtain ⟨hlt, hrest⟩ := List.forall_mem_cons.mp htags
      obtain ⟨hnext, hfound⟩ := step_isSound h hlt t
      exact List.forall_mem_append.mpr ⟨hfound, ih hnext hrest⟩

theorem isSound : rule.IsSound := by
  refine Rule.isSound_ofCheck fun lines => isSound_walk ⟨List.forall_mem_nil _, ?_⟩ ?_
  · exact fun _ hnone => nomatch hnone
  · intro entry hentry
    obtain ⟨⟨blanked, i⟩, hblanked, htag⟩ := List.mem_flatMap.mp hentry
    obtain ⟨t, -, rfl⟩ := List.mem_map.mp htag
    exact MarkupComment.lt_of_mem_zipIdx_blank hblanked

end TableStructure

namespace TagCase

theorem name_ne_nil {t : Tag} {o : Occurrence} (h : o ∈ occurrences t) : o.name ≠ [] := by
  simp only [occurrences, List.mem_append] at h
  rcases h with h | h
  · split_ifs at h with hlower
    · cases h
    · obtain rfl := List.mem_singleton.mp h
      intro hnil
      simp only at hnil
      simp [Tag.lowerName, hnil, Text.lower, Text.lowerFrom] at hlower
  · split_ifs at h
    · cases h
    · obtain ⟨a, -, ha⟩ := List.mem_filterMap.mp h
      split_ifs at ha with hlower
      obtain rfl := Option.some.inj ha
      intro hnil
      simp only at hnil
      simp [hnil, Text.lower, Text.lowerFrom] at hlower

theorem lowered_ne_nil (line : Text) {name : Text} {positions : List Nat} (hname : name ≠ [])
    (hpositions : positions ≠ []) : lowered line name positions ≠ [] := by
  obtain ⟨init, last, rfl⟩ : ∃ init last, positions = init ++ [last] :=
    ⟨_, _, (List.dropLast_append_getLast hpositions).symm⟩
  rw [lowered, List.foldl_append]
  exact Text.splice_ne_nil (Text.lower_ne_nil hname)

theorem isSound : rule.IsSound := by
  refine isSound_eachTagLine fun lines i hlt line tags f hf => ?_
  obtain ⟨⟨kind, name⟩, hkind, rfl⟩ := List.mem_map.mp hf
  obtain ⟨o, ho, heq⟩ := List.mem_map.mp (List.mem_eraseDups.mp hkind)
  obtain ⟨t, -, htag⟩ := List.mem_flatMap.mp ho
  cases heq
  refine Finding.isSound_of_lt hlt (Finding.fills_of_fields rfl) fun hnil => ?_
  refine lowered_ne_nil line (name_ne_nil htag) (fun hnone => ?_) (Option.some.inj hnil)
  have hmem : o.position ∈ ((tags.flatMap occurrences).filter fun other =>
      other.kind == o.kind && other.name == o.name).map (·.position) :=
    List.mem_map.mpr ⟨o, List.mem_filter.mpr ⟨ho, by simp⟩, rfl⟩
  rw [hnone] at hmem
  cases hmem

end TagCase

theorem AttributeQuotes.isSound : rule.IsSound := by
  refine isSound_eachTagLine fun lines i hlt line tags f hf => ?_
  obtain ⟨t, -, hf⟩ := List.mem_flatMap.mp hf
  obtain ⟨a, -, hf⟩ := List.mem_filterMap.mp hf
  obtain ⟨value, -, hf⟩ := Option.bind_eq_some_iff.mp hf
  obtain ⟨⟨problem, inner⟩, -, hf⟩ := Option.bind_eq_some_iff.mp hf
  obtain rfl := Option.some.inj hf
  exact Finding.isSound_of_lt hlt (Finding.fills_of_fields rfl)
    fun hnil => Text.splice_ne_nil (by simp) (Option.some.inj hnil)

theorem RequiredAttribute.isSound : rule.IsSound := by
  refine isSound_eachTagLine fun lines i hlt line tags f hf => ?_
  obtain ⟨t, -, hf⟩ := List.mem_flatMap.mp hf
  unfold checkTag at hf
  split_ifs at hf
  · cases hf
  · obtain ⟨name, -, hf⟩ := List.mem_filterMap.mp hf
    split_ifs at hf
    obtain rfl := Option.some.inj hf
    exact Finding.isSound_of_lt hlt (Finding.fills_of_fields rfl)
      fun hnil => Text.splice_ne_nil (by simp [emptyAttribute]) (Option.some.inj hnil)

namespace ImageDimensions

theorem complete_ne_nil (line : Text) {tags : List Tag} {t : Tag} (ht : t ∈ tags)
    (habsent : absent t ≠ []) : complete line tags ≠ [] := by
  induction tags with
  | nil => cases ht
  | cons first rest ih =>
      intro hnil
      have hsplice : Text.splice (complete line rest) first.nameStop first.nameStop
          ((absent first).flatMap emptyAttribute) = [] := hnil
      obtain ⟨hfront, hback⟩ := List.append_eq_nil_iff.mp hsplice
      obtain ⟨htake, hnew⟩ := List.append_eq_nil_iff.mp hfront
      rcases List.mem_cons.mp ht with rfl | ht
      · obtain ⟨name, names, hnames⟩ := List.exists_cons_of_ne_nil habsent
        rw [hnames, List.flatMap_cons] at hnew
        simp [emptyAttribute] at hnew
      · refine ih ht ?_
        rw [← List.take_append_drop first.nameStop (complete line rest), htake, hback]
        rfl

theorem isSound : rule.IsSound := by
  refine isSound_eachTagLine fun lines i hlt line tags f hf => ?_
  simp only [check] at hf
  split at hf
  · cases hf
  · rename_i missing hmissing
    obtain ⟨t, ht, rfl⟩ := List.mem_map.mp (List.mem_of_find?_eq_some hmissing)
    have habsent : absent t ≠ [] := by simpa using List.find?_some hmissing
    obtain rfl := List.mem_singleton.mp hf
    exact Finding.isSound_of_lt hlt (Finding.fills_of_fields rfl)
      fun hnil => complete_ne_nil line ht habsent (Option.some.inj hnil)

end ImageDimensions

theorem EmptyElement.isSound : rule.IsSound := by
  refine Rule.isSound_ofCheck fun lines f hf => ?_
  obtain ⟨i, blanked, hline, hf⟩ := Rule.mem_eachLine.mp hf
  have hlt : i < lines.length := by
    rw [← MarkupComment.length_blank lines]
    exact (List.getElem?_eq_some_iff.mp hline).1
  obtain ⟨m, -, hf⟩ := List.mem_filterMap.mp hf
  simp only at hf
  split_ifs at hf
  obtain rfl := Option.some.inj hf
  exact Finding.isSound_of_lt hlt (Finding.fills_of_fields rfl) (by simp)

namespace TagSpelling

variable {r : TagSpelling} {name : Text}

theorem exists_score? (hname : name ≠ []) {candidate : Text} (hcandidate : candidate ≠ []) :
    ∃ score, r.score? name candidate = .ok score ∧
      ∀ s ∈ score, s.candidate = candidate := by
  obtain ⟨a, name, rfl⟩ := List.exists_cons_of_ne_nil hname
  obtain ⟨b, candidate, rfl⟩ := List.exists_cons_of_ne_nil hcandidate
  simp only [score?]
  split_ifs
  · exact ⟨none, rfl, fun _ hnone => nomatch hnone⟩
  · refine ⟨_, rfl, ?_⟩
    rintro _ ⟨⟩
    rfl

variable (hknown : ∀ candidate ∈ r.known, candidate ≠ [])
include hknown

theorem exists_similar (hname : name ≠ []) :
    ∃ candidates, r.similar name = .ok candidates ∧
      ∀ candidate ∈ candidates, candidate ≠ [] := by
  have hscore : ∀ candidate ∈ r.known.eraseDups, ∃ score,
      r.score? name candidate = .ok score ∧ ∀ s ∈ score, s.candidate = candidate :=
    fun candidate hmem => exists_score? hname (hknown candidate (List.mem_eraseDups.mp hmem))
  obtain ⟨scores, hscores⟩ := exists_mapM_eq_ok fun candidate hmem =>
    (hscore candidate hmem).imp fun _ => And.left
  refine ⟨_, bind_eq_ok_iff.mpr ⟨scores, hscores, rfl⟩, fun best hbest => ?_⟩
  obtain ⟨s, hs, rfl⟩ := List.mem_map.mp hbest
  obtain ⟨score, hmem, hsome⟩ := List.mem_filterMap.mp ((List.mergeSort_perm _ _).mem_iff.mp hs)
  obtain ⟨candidate, hcandidate, hrun⟩ := mem_of_mapM_eq_ok hscores hmem
  obtain ⟨score', hscore', heq⟩ := hscore candidate hcandidate
  obtain rfl : score = score' := Except.ok.inj (hrun.symm.trans hscore')
  rw [heq s hsome]
  exact hknown candidate (List.mem_eraseDups.mp hcandidate)

omit hknown

theorem respell_ne_nil (line : Text) {tags : List Tag} {new : Text}
    (hname : name ∈ tags.map (·.lowerName)) (hnew : new ≠ []) :
    respell line tags name new ≠ [] := by
  induction tags with
  | nil => cases hname
  | cons t rest ih =>
      rw [respell, List.foldr_cons]
      split_ifs with hlower
      · exact Text.splice_ne_nil hnew
      · refine ih ((List.mem_cons.mp hname).resolve_left fun heq => hlower ?_)
        simp [heq]

include hknown

theorem isSound : r.rule.IsSound := by
  refine Rule.isSound_ofFindings fun lines => Rule.exists_flatten_of_isSound ?_
  rintro ⟨⟨line, blanked⟩, i⟩ hentry
  have hline := (standFor_zip lines _).getElem?_of_mem_zipIdx hentry
  refine Rule.exists_flatten_of_isSound fun name hsuspect => ?_
  obtain ⟨hname, hlong⟩ := List.mem_filter.mp (List.mem_eraseDups.mp hsuspect)
  have hne : name ≠ [] := by
    rintro rfl
    simp [isSuspect] at hlong
  obtain ⟨candidates, hsimilar, hcandidates⟩ := exists_similar hknown hne
  rw [checkName, hsimilar]
  cases candidates with
  | nil => exact ⟨[], rfl, List.forall_mem_nil _⟩
  | cons best others =>
      refine ⟨_, rfl, List.forall_mem_singleton.mpr ?_⟩
      refine Finding.isSound_of_ne_nil hline (Finding.fills_of_fields rfl) fun hnil => ?_
      exact respell_ne_nil line hname (hcandidates best List.mem_cons_self)
        (Option.some.inj hnil)

end TagSpelling

end LineLint
