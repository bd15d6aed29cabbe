import LineLint.Proofs.NamePlaces
import LineLint.Proofs.SoundMarkup
import LineLint.Proofs.TagLineReports

/-!
# Lowered names

A name is replaced by its lower case form at each of its places in the reported line, from left to
right and at the places that it has before. Unless the form is longer, each place is still where it
was when its turn comes. If it is longer, and there is a second place, the form is put down too far
to the left there, over what stands before the name.
-/

namespace LineLint

theorem Text.splice_middle (front old back new : Text) :
    splice (front ++ (old ++ back)) front.length (front.length + old.length) new =
      front ++ (new ++ back) := by
  rw [splice, List.take_left, ← List.drop_drop, List.drop_left, List.drop_left, List.append_assoc]

namespace TagCase

open Tag (isAttributeChar Bounds NamesIn names)

variable {line before rest first name u v : Text} {others : List Text} {positions : List Nat}
  {spots : List (Text × Nat)} {x c : Char} {p q : Nat}

def joined (first name : Text) (others : List Text) : Text := first ++ others.flatMap (name ++ ·)

def startsOf (name : Text) (start : Nat) : List Text → List Nat
  | [] => []
  | part :: others => start :: startsOf name (start + name.length + part.length) others

theorem joined_cons (first name u : Text) (others : List Text) :
    joined first name (u :: others) = first ++ (name ++ (u ++ others.flatMap (name ++ ·))) := by
  rw [joined, List.flatMap_cons, List.append_assoc]

theorem joined_cons' (first name u : Text) (others : List Text) :
    joined first name (u :: others) = joined (first ++ (name ++ u)) name others := by
  rw [joined_cons, joined, List.append_assoc, List.append_assoc]

theorem le_of_mem_startsOf {start : Nat} (h : p ∈ startsOf name start others) : start ≤ p := by
  induction others generalizing start with
  | nil => cases h
  | cons part others ih =>
      rcases List.mem_cons.mp h with rfl | h
      · exact Nat.le_refl _
      · have hle := ih h
        omega

section Splices

theorem lowered_cons (line name : Text) (p : Nat) (positions : List Nat) :
    lowered line name (p :: positions) =
      lowered (line.splice p (p + name.length) name.lower) name positions :=
  rfl

theorem lowered_joined_cons (first name u : Text) (others : List Text) (positions : List Nat) :
    lowered (joined first name (u :: others)) name (first.length :: positions) =
      lowered (joined (first ++ (name.lower ++ u)) name others) name positions := by
  rw [lowered_cons, joined_cons, Text.splice_middle, joined, List.append_assoc, List.append_assoc]

theorem lowered_joined (h : name.lower.length = name.length) (first : Text) (others : List Text) :
    lowered (joined first name others) name (startsOf name first.length others) =
      joined first name.lower others := by
  induction others generalizing first with
  | nil => rfl
  | cons u others ih =>
      have hlength : first.length + name.length + u.length =
          (first ++ (name.lower ++ u)).length := by
        rw [List.length_append, List.length_append, h, Nat.add_assoc]
      rw [startsOf, lowered_joined_cons, hlength, ih, joined_cons']

theorem lowered_joined_single (first name u : Text) :
    lowered (joined first name [u]) name (startsOf name first.length [u]) =
      joined first name.lower [u] := by
  rw [startsOf, lowered_joined_cons, joined_cons']
  rfl

theorem getElem?_lowered_of_lt {t : Text} (hq : ∀ p ∈ positions, q < p) (hc : t[q]? = some c) :
    (lowered t name positions)[q]? = some c := by
  induction positions generalizing t with
  | nil => exact hc
  | cons p positions ih =>
      obtain ⟨hp, hpositions⟩ := List.forall_mem_cons.mp hq
      refine ih hpositions ?_
      have hlt := (List.getElem?_eq_some_iff.mp hc).1
      change (t.splice p (p + name.length) name.lower)[q]? = some c
      rw [Text.splice, List.append_assoc, List.getElem?_append_left (by simp; omega),
        List.getElem?_take, if_pos hp, hc]

theorem getElem?_splice (hp : p ≤ line.length) {new : Text} (hq : q < new.length) (stop : Nat) :
    (line.splice p stop new)[p + q]? = new[q]? := by
  have hlength : (line.take p).length = p := List.length_take_of_le hp
  rw [Text.splice, List.append_assoc, List.getElem?_append_right (by omega), hlength,
    Nat.add_sub_cancel_left, List.getElem?_append_left hq]

/-- What the lower case form has been put over is only put over by it again. -/
theorem exists_getElem?_lowered {t : Text} {start : Nat} (hpositions : ∀ p ∈ positions, start ≤ p)
    (hstart : start ≤ q) (hq : q < start + name.lower.length) (hc : t[q]? = some c)
    (hmem : c ∈ name.lower) : ∃ c ∈ name.lower, (lowered t name positions)[q]? = some c := by
  induction positions generalizing t c with
  | nil => exact ⟨c, hmem, hc⟩
  | cons p positions ih =>
      obtain ⟨hp, hpositions⟩ := List.forall_mem_cons.mp hpositions
      by_cases hlt : q < p
      · have hone : ∀ p' ∈ [p], q < p' := by simpa using hlt
        exact ih hpositions (getElem?_lowered_of_lt hone hc) hmem
      · obtain ⟨k, rfl⟩ := Nat.exists_eq_add_of_le (Nat.le_of_not_lt hlt)
        have hk : k < name.lower.length := by omega
        have hlength := (List.getElem?_eq_some_iff.mp hc).1
        refine ih hpositions (c := name.lower[k]) ?_ (List.getElem_mem hk)
        change (t.splice p (p + name.length) name.lower)[p + k]? = some name.lower[k]
        rw [getElem?_splice (by omega) hk, List.getElem?_eq_getElem hk]

/-- The sign that comes before a second place stands behind the first one. -/
theorem exists_sign_of_bounds (hchars : ∀ c ∈ name, isAttributeChar c = true)
    (hx : name.head? = some x) (h : Bounds (first ++ (name ++ u)) x) :
    ∃ front sign run, u = front ++ sign :: run ∧ isAttributeChar sign = false ∧
      (run ≠ [] → isWordChar x = false) ∧ ∀ c ∈ run, c ≠ lowerChar x := by
  obtain ⟨front, sign, run, hsplit, hsign, hword, hrun⟩ := h
  have hlower : ∀ c ∈ run, c ≠ lowerChar x := fun c hc => (hrun c hc).2.2
  have hname : x ∈ name := List.mem_of_mem_head? hx
  have hnot : sign ∉ name := fun hmem => by
    rw [hchars sign hmem] at hsign
    cases hsign
  rw [← List.append_assoc] at hsplit
  rcases List.append_eq_append_iff.mp hsplit with ⟨more, hfront, hu⟩ | ⟨more, hfront, hrest⟩
  · exact ⟨more, sign, run, hu, hsign, hword, hlower⟩
  · cases more with
    | nil => exact ⟨[], sign, run, hrest.symm, hsign, hword, hlower⟩
    | cons y more =>
        -- the sign would stand in the name, or the name in the run
        obtain ⟨rfl, hmore⟩ := List.cons.inj hrest
        rcases List.append_eq_append_iff.mp hfront with ⟨before, -, hbefore⟩ | ⟨before, -, hbefore⟩
        · exact absurd (hbefore ▸ by simp) hnot
        · cases before with
          | nil =>
              rw [List.nil_append] at hbefore
              exact absurd (hbefore ▸ List.mem_cons_self) hnot
          | cons y before =>
              have hin : x ∈ run := by
                rw [hmore, (List.cons.inj hbefore).2]
                simp [hname]
              exact absurd rfl (hrun x hin).2.1

/-- After the first place, the next one that the form is put over is where the name stood. -/
theorem exists_lowered_second (hname : name ≠ []) (first u v : Text) (others : List Text) :
    ∃ (line : Text) (later : List Nat), (first ++ (name ++ u)).length ≤ line.length ∧
      (∀ p ∈ later, (first ++ (name ++ u)).length < p) ∧
      lowered (joined first name (u :: v :: others)) name
          (startsOf name first.length (u :: v :: others)) =
        lowered (line.splice (first ++ (name ++ u)).length
          ((first ++ (name ++ u)).length + name.length) name.lower) name later := by
  have hpositive := List.length_pos_of_ne_nil hname
  have hplace : (first ++ (name ++ u)).length = first.length + name.length + u.length := by
    rw [List.length_append, List.length_append, Nat.add_assoc]
  have hgrows : name.length ≤ name.lower.length := by
    rw [Text.length_lower]
    exact Nat.le_add_right _ _
  refine ⟨joined (first ++ (name.lower ++ u)) name (v :: others),
    startsOf name (first.length + name.length + u.length + name.length + v.length) others, ?_,
    fun p hp => ?_, ?_⟩
  · simp only [joined, List.length_append]
    omega
  · have hle := le_of_mem_startsOf hp
    omega
  · rw [startsOf, startsOf, lowered_joined_cons, lowered_cons, hplace]

/-- Where the name stood for the second time, characters of the form stand. -/
theorem exists_mem_lower_second {k : Nat} (hk : k < name.lower.length) (hname : name ≠ [])
    (first u v : Text) (others : List Text) :
    ∃ c ∈ name.lower, (lowered (joined first name (u :: v :: others)) name
      (startsOf name first.length (u :: v :: others)))[(first ++ (name ++ u)).length + k]? =
        some c := by
  obtain ⟨line, later, hplace, hlater, hlowered⟩ := exists_lowered_second hname first u v others
  rw [hlowered]
  refine exists_getElem?_lowered (fun p hp => Nat.le_of_lt (hlater p hp)) (Nat.le_add_right _ k)
    (Nat.add_lt_add_left hk _) (c := name.lower[k]) ?_ (List.getElem_mem hk)
  rw [getElem?_splice hplace hk, List.getElem?_eq_getElem hk]

theorem getElem?_lowered_second (hc : name.lower.head? = some c) (hname : name ≠ [])
    (first u v : Text) (others : List Text) :
    (lowered (joined first name (u :: v :: others)) name
      (startsOf name first.length (u :: v :: others)))[(first ++ (name ++ u)).length]? =
        some c := by
  obtain ⟨line, later, hplace, hlater, hlowered⟩ := exists_lowered_second hname first u v others
  have hpositive : 0 < name.lower.length := by
    obtain ⟨more, hmore⟩ := List.head?_eq_some_iff.mp hc
    rw [hmore]
    exact Nat.succ_pos _
  rw [hlowered]
  refine getElem?_lowered_of_lt hlater ?_
  rw [List.head?_eq_getElem?] at hc
  exact (getElem?_splice hplace hpositive _).trans hc

theorem lowered_joined_ne (hlong : name.length < name.lower.length)
    (hchars : ∀ c ∈ name, isAttributeChar c = true) (hx : name.head? = some x)
    (hbounds : Bounds (first ++ (name ++ u)) x) (v : Text) (others : List Text) :
    lowered (joined first name (u :: v :: others)) name
        (startsOf name first.length (u :: v :: others)) ≠
      joined first name.lower (u :: v :: others) := by
  obtain ⟨front, sign, run, rfl, hsign, hword, hrun⟩ := exists_sign_of_bounds hchars hx hbounds
  have hname : name ≠ [] := by
    rintro rfl
    cases hx
  obtain ⟨back, hclaimed⟩ : ∃ back,
      joined first name.lower ((front ++ sign :: run) :: v :: others) =
        (first ++ (name.lower ++ front)) ++ sign :: (run ++ back) := by
    refine ⟨(v :: others).flatMap (name.lower ++ ·), ?_⟩
    rw [joined_cons]
    simp
  intro heq
  by_cases hrunlength : name.length + run.length < name.lower.length
  · -- the sign is put over
    have hk : name.lower.length - name.length - 1 - run.length < name.lower.length := by omega
    obtain ⟨c, hc, hat⟩ := exists_mem_lower_second hk hname first (front ++ sign :: run) v others
    have hindex : (first ++ (name ++ (front ++ sign :: run))).length +
        (name.lower.length - name.length - 1 - run.length) =
          (first ++ (name.lower ++ front)).length := by
      simp only [List.length_append, List.length_cons]
      omega
    rw [heq, hclaimed, hindex, List.getElem?_append_right (Nat.le_refl _), Nat.sub_self] at hat
    obtain rfl : sign = c := Option.some.inj hat
    rw [Text.isAttributeChar_of_mem_lower hchars _ hc] at hsign
    cases hsign
  · -- a character of the run is put over
    let j := run.length + name.length - name.lower.length
    have hj : j < run.length := by omega
    have hempty : run ≠ [] := List.ne_nil_of_length_pos (Nat.lt_of_le_of_lt (Nat.zero_le j) hj)
    have hlower : name.lower.head? = some (lowerChar x) := by
      obtain ⟨others, rfl⟩ := List.head?_eq_some_iff.mp hx
      exact Text.head?_lower (hword hempty) others
    have hat := getElem?_lowered_second hlower hname first (front ++ sign :: run) v others
    have hindex : (first ++ (name ++ (front ++ sign :: run))).length =
        (first ++ (name.lower ++ front)).length + (j + 1) := by
      simp only [j, List.length_append, List.length_cons]
      omega
    rw [heq, hclaimed, hindex, List.getElem?_append_right (Nat.le_add_right _ _),
      Nat.add_sub_cancel_left, List.getElem?_cons_succ, List.getElem?_append_left hj,
      List.getElem?_eq_getElem hj] at hat
    exact hrun _ (List.getElem_mem hj) (Option.some.inj hat)

end Splices

section Places

/-- Equal names that stand in a text are what its other parts are joined by, and each one has
before it what may come before a name. -/
theorem exists_joined_of_namesIn (h : NamesIn before rest spots) (hspots : ∀ s ∈ spots, s.1 = name) :
    ∃ first others, rest = joined first name others ∧
      spots.map Prod.snd = startsOf name (before.length + first.length) others ∧
      ∀ front part back, others = front ++ part :: back →
        ∀ x ∈ name.head?, Bounds (joined (before ++ first) name front) x := by
  induction h with
  | nil before rest =>
      refine ⟨rest, [], by simp [joined], rfl, fun front part back hsplit => ?_⟩
      simp at hsplit
  | @skip before rest spots x hrest ih =>
      obtain ⟨first, others, rfl, hplaces, hbounds⟩ := ih hspots
      have hfront : before ++ [x] ++ first = before ++ x :: first := by simp
      refine ⟨x :: first, others, rfl, ?_, fun front part back hsplit => ?_⟩
      · rw [hplaces, ← List.length_append, hfront, List.length_append]
      · exact hfront ▸ hbounds front part back hsplit
  | @name before own rest spots hname hchars hbounds hrest ih =>
      obtain ⟨rfl, hspots⟩ := List.forall_mem_cons.mp hspots
      obtain ⟨first, others, rfl, hplaces, hlater⟩ := ih hspots
      refine ⟨[], first :: others, ?_, ?_, fun front part back hsplit x hx => ?_⟩
      · rw [joined_cons, joined]
        rfl
      · rw [List.map_cons, hplaces, List.length_append, startsOf]
        rfl
      · cases front with
        | nil =>
            rw [joined, List.flatMap_nil, List.append_nil, List.append_nil]
            exact hbounds x hx
        | cons part' front =>
            rw [List.cons_append] at hsplit
            obtain ⟨rfl, hothers⟩ := List.cons.inj hsplit
            rw [joined_cons', List.append_nil, ← List.append_assoc]
            exact hlater front part back hothers x hx

/-- The form in lower case is put down at each place, unless it is longer and there are several. -/
theorem lowered_joined_eq_iff (hothers : others ≠ []) (hname : name ≠ [])
    (hchars : ∀ c ∈ name, isAttributeChar c = true)
    (hbounds : ∀ front part back, others = front ++ part :: back →
      ∀ x ∈ name.head?, Bounds (joined first name front) x) :
    lowered (joined first name others) name (startsOf name first.length others) =
        joined first name.lower others ↔ dottedCapital ∉ name ∨ others.length = 1 := by
  obtain ⟨u, others, rfl⟩ := List.exists_cons_of_ne_nil hothers
  obtain ⟨x, name', rfl⟩ := List.exists_cons_of_ne_nil hname
  constructor
  · intro heq
    by_contra hnot
    rw [not_or, Classical.not_not] at hnot
    obtain ⟨hdotted, hlength⟩ := hnot
    cases others with
    | nil => exact hlength rfl
    | cons v others =>
        have hlong : (x :: name').length < (Text.lower (x :: name')).length := by
          rw [Text.length_lower]
          exact Nat.lt_add_of_pos_right (List.count_pos_iff.mpr hdotted)
        have hbound : Bounds (first ++ (x :: name' ++ u)) x := by
          have hsecond := hbounds [u] v others rfl x rfl
          rwa [joined_cons, List.flatMap_nil, List.append_nil] at hsecond
        exact lowered_joined_ne hlong hchars rfl hbound v others heq
  · rintro (hdotted | hlength)
    · refine lowered_joined ?_ first (u :: others)
      rw [Text.length_lower, List.count_eq_zero.mpr hdotted, Nat.add_zero]
    · obtain rfl : others = [] := by simpa using hlength
      exact lowered_joined_single first (x :: name') u

/-- The places of a name as the name of a tag, or as that of an attribute; end tags have none of
these. -/
def NameKind.places (name : Text) (tags : List Tag) : NameKind → List Nat
  | .tagName => (tags.filter fun t => t.name == name).map (·.nameStart)
  | .attributeName => (((tags.filter fun t => !t.isClosing).flatMap (·.attributes)).filter
      fun a => a.name == name).map (·.start)

theorem NameKind.places_cons (kind : NameKind) (name : Text) (t : Tag) (tags : List Tag) :
    kind.places name (t :: tags) = kind.places name [t] ++ kind.places name tags := by
  cases kind with
  | tagName =>
      simp only [places]
      rw [← List.map_append, ← List.filter_append]
      rfl
  | attributeName =>
      simp only [places]
      rw [← List.map_append, ← List.filter_append, ← List.flatMap_append, ← List.filter_append]
      rfl

def attributeOccurrence? (a : Attribute) : Option Occurrence :=
  if a.name == a.name.lower then none else some ⟨.attributeName, a.name, a.start⟩

theorem of_attributeOccurrence? {a : Attribute} {o : Occurrence}
    (h : attributeOccurrence? a = some o) :
    a.name ≠ a.name.lower ∧ o = ⟨.attributeName, a.name, a.start⟩ := by
  unfold attributeOccurrence? at h
  split_ifs at h with hlower
  exact ⟨fun heq => hlower (beq_iff_eq.mpr heq), (Option.some.inj h).symm⟩

theorem occurrences_eq (t : Tag) : occurrences t =
    (if t.name == t.lowerName then [] else [⟨.tagName, t.name, t.nameStart⟩]) ++
      if t.isClosing then [] else t.attributes.filterMap attributeOccurrence? :=
  rfl

theorem positions_attributes (hname : name ≠ name.lower) (attributes : List Attribute) :
    ((attributes.filterMap attributeOccurrence?).filter fun o =>
        o.kind == .attributeName && o.name == name).map (·.position) =
      (attributes.filter fun a => a.name == name).map (·.start) := by
  induction attributes with
  | nil => rfl
  | cons a attributes ih =>
      by_cases hlower : (a.name == a.name.lower) = true
      · have hnone : attributeOccurrence? a = none := if_pos hlower
        have hne : a.name ≠ name := fun h => hname (h ▸ eq_of_beq hlower)
        rw [List.filterMap_cons_none hnone, ih, List.filter_cons_of_neg (by simpa using hne)]
      · have hsome : attributeOccurrence? a = some ⟨.attributeName, a.name, a.start⟩ :=
          if_neg hlower
        rw [List.filterMap_cons_some hsome]
        by_cases hsame : a.name = name
        · rw [List.filter_cons_of_pos (by simp [hsame]), List.filter_cons_of_pos (by simp [hsame]),
            List.map_cons, List.map_cons, ih]
        · rw [List.filter_cons_of_neg (by simp [hsame]), List.filter_cons_of_neg (by simp [hsame]),
            ih]

theorem positions_occurrences (hname : name ≠ name.lower) (kind : NameKind) (t : Tag) :
    ((occurrences t).filter fun o => o.kind == kind && o.name == name).map (·.position) =
      kind.places name [t] := by
  have hown : ((if t.name == t.lowerName then []
      else [(⟨.tagName, t.name, t.nameStart⟩ : Occurrence)]).filter
        fun o => o.kind == kind && o.name == name).map (·.position) =
      if kind = .tagName ∧ t.name = name then [t.nameStart] else [] := by
    by_cases hlower : (t.name == t.lowerName) = true
    · have hne : t.name ≠ name := fun h => hname (h ▸ eq_of_beq hlower)
      rw [if_pos hlower, if_neg fun h => hne h.2]
      rfl
    · rw [if_neg hlower]
      cases kind <;> by_cases hsame : t.name = name <;> simp [hsame]
  rw [occurrences_eq, List.filter_append, List.map_append, hown]
  cases kind with
  | tagName =>
      have hnone : (if t.isClosing then [] else t.attributes.filterMap attributeOccurrence?).filter
          (fun o => o.kind == .tagName && o.name == name) = [] := by
        refine List.filter_eq_nil_iff.mpr fun o ho => ?_
        split_ifs at ho
        · cases ho
        · obtain ⟨a, -, ha⟩ := List.mem_filterMap.mp ho
          obtain ⟨-, rfl⟩ := of_attributeOccurrence? ha
          simp
      rw [hnone]
      by_cases hsame : t.name = name <;> simp [NameKind.places, hsame]
  | attributeName =>
      cases hclosing : t.isClosing with
      | true => simp [NameKind.places, hclosing]
      | false =>
          rw [if_neg Bool.false_ne_true, positions_attributes hname]
          simp [NameKind.places, hclosing]

theorem positions_eq_places (hname : name ≠ name.lower) (kind : NameKind) (tags : List Tag) :
    ((tags.flatMap occurrences).filter fun o => o.kind == kind && o.name == name).map (·.position) =
      kind.places name tags := by
  induction tags with
  | nil => cases kind <;> rfl
  | cons t tags ih =>
      rw [List.flatMap_cons, List.filter_append, List.map_append, ih,
        positions_occurrences hname, ← kind.places_cons]

theorem sublist_names (kind : NameKind) (name : Text) (tags : List Tag) :
    ((kind.places name tags).map fun p => (name, p)).Sublist (tags.flatMap names) := by
  induction tags with
  | nil => cases kind <;> exact List.Sublist.refl []
  | cons t tags ih =>
      rw [kind.places_cons, List.map_append, List.flatMap_cons]
      refine List.Sublist.append ?_ ih
      cases kind with
      | tagName =>
          by_cases hname : t.name = name
          · simp [NameKind.places, names, hname]
          · simp [NameKind.places, hname]
      | attributeName =>
          refine List.Sublist.cons _ ?_
          cases hclosing : t.isClosing with
          | true => simp [NameKind.places, hclosing]
          | false =>
              have hsame : ((t.attributes.filter fun a => a.name == name).map
                  fun a => (name, a.start)) =
                    (t.attributes.filter fun a => a.name == name).map fun a => (a.name, a.start) :=
                List.map_congr_left fun a ha => by rw [eq_of_beq (List.mem_filter.mp ha).2]
              simp only [NameKind.places, hclosing, List.map_map, Bool.not_false, List.filter_cons,
                List.filter_nil, if_true, List.flatMap_singleton]
              exact hsame ▸ List.filter_sublist.map _

end Places

section Reports

open MarkupComment (blank blankLine insideAfter)

variable {lines : List Text} {i : Nat} {kind : NameKind}

theorem name_ne_lower {t : Tag} {o : Occurrence} (h : o ∈ occurrences t) : o.name ≠ o.name.lower := by
  rw [occurrences_eq] at h
  rcases List.mem_append.mp h with h | h
  · split_ifs at h with hlower
    · cases h
    · obtain rfl := List.mem_singleton.mp h
      exact fun heq => hlower (beq_iff_eq.mpr heq)
  · split_ifs at h
    · cases h
    · obtain ⟨a, -, ha⟩ := List.mem_filterMap.mp h
      obtain ⟨hlower, rfl⟩ := of_attributeOccurrence? ha
      exact hlower

theorem of_mem_check {tags : List Tag} {f : Finding} (h : f ∈ check i line tags) :
    ∃ (kind : NameKind) (name : Text), name ≠ name.lower ∧ kind.places name tags ≠ [] ∧
      f = { index := i
            replacement := lowered line name (kind.places name tags)
            fields := [("kind", kind.plural.toList), ("name", name)] } := by
  obtain ⟨⟨kind, name⟩, hkind, rfl⟩ := List.mem_map.mp h
  obtain ⟨o, ho, heq⟩ := List.mem_map.mp (List.mem_eraseDups.mp hkind)
  obtain ⟨t, -, htag⟩ := List.mem_flatMap.mp ho
  cases heq
  have hplaces := positions_eq_places (name_ne_lower htag) o.kind tags
  refine ⟨o.kind, o.name, name_ne_lower htag, ?_, by rw [← hplaces]⟩
  rw [← hplaces]
  exact List.ne_nil_of_mem (List.mem_map.mpr ⟨o, List.mem_filter.mpr ⟨ho, by simp⟩, rfl⟩)

def nameReport (i : Nat) (kind : NameKind) (name line new : Text) : Diagnostic where
  code := "LINT_HTML_TAG_CASE"
  message := "HTML ".toList ++ (kind.plural.toList ++ (" should be lowercase: '".toList ++
    (name ++ ['\''])))
  line := i + 1
  category := "Formatting"
  suggestion := "Convert ".toList ++ (kind.plural.toList ++ " to lowercase".toList)
  snippet := line
  replacement := some new

theorem report_name (hline : lines[i]? = some line) (name new : Text) :
    Spec.tagCase.report lines
        { index := i, replacement := new,
          fields := [("kind", kind.plural.toList), ("name", name)] } =
      .ok (nameReport i kind name line new) := by
  simp only [Spec.report, hline]
  rfl

theorem exists_blankLine_eq (hline : lines[i]? = some line) :
    ∃ inside, (blank lines).getD i [] = (blankLine inside line).1 := by
  obtain ⟨hlt, hget⟩ := List.getElem?_eq_some_iff.mp hline
  have hsplit : lines = lines.take i ++ line :: lines.drop (i + 1) := by
    rw [← hget, List.getElem_cons_drop, List.take_append_drop]
  have hlength : (lines.take i).length = i := List.length_take_of_le (Nat.le_of_lt hlt)
  refine ⟨insideAfter false (lines.take i), ?_⟩
  rw [← MarkupComment.getD_blank_append_cons (lines.take i) (lines.drop (i + 1)) line, ← hsplit,
    hlength]

/-- The places of a name in the tags of a line are places in the line itself. -/
theorem namesIn_places (hline : lines[i]? = some line) (kind : NameKind) (name : Text) :
    NamesIn [] line
      ((kind.places name (Tag.all ((blank lines).getD i []))).map fun p => (name, p)) := by
  obtain ⟨inside, hblanked⟩ := exists_blankLine_eq hline
  rw [hblanked]
  exact MarkupComment.namesIn_of_blankLine rfl rfl rfl
    ((Tag.namesIn_all _).sublist (sublist_names kind name _))

/-- Every report of the rule is about a name of one kind, and offers the reported line with the name
in lower case at each of its places, unless the name has the letter that is lowered to two
characters and stands at more than one place: then something else is offered. -/
theorem exists_run_rule_lowered (lines : List Text) :
    ∃ ds, rule.run lines = .ok ds ∧ ∀ d ∈ ds,
      ∃ (i : Nat) (kind : NameKind) (name first : Text) (others : List Text) (new : Text),
        d = nameReport i kind name (joined first name others) new ∧
        lines[i]? = some (joined first name others) ∧ others ≠ [] ∧
        kind.places name (Tag.all ((blank lines).getD i [])) = startsOf name first.length others ∧
        (new = joined first name.lower others ↔ dottedCapital ∉ name ∨ others.length = 1) := by
  obtain ⟨ds, hrun⟩ := isSound.runs lines
  refine ⟨ds, hrun, fun d hd => ?_⟩
  obtain ⟨f, hf, hreport⟩ := (Rule.mem_iff_of_run_ofCheck hrun).mp hd
  obtain ⟨i, line, hline, hcheck⟩ := mem_eachTagLine hf
  obtain ⟨kind, name, -, hplaces, rfl⟩ := of_mem_check hcheck
  rw [report_name hline] at hreport
  obtain rfl := Except.ok.inj hreport
  -- the parts of the line between the places
  have hnames := namesIn_places hline kind name
  have hsame : ∀ s ∈ (kind.places name (Tag.all ((blank lines).getD i []))).map fun p => (name, p),
      s.1 = name := by
    intro s hs
    obtain ⟨p, -, rfl⟩ := List.mem_map.mp hs
    rfl
  obtain ⟨p, hp⟩ := List.exists_mem_of_ne_nil _ hplaces
  obtain ⟨hname, hchars⟩ := hnames.of_mem (List.mem_map.mpr ⟨p, hp, rfl⟩)
  obtain ⟨first, others, rfl, hstarts, hbounds⟩ := exists_joined_of_namesIn hnames hsame
  rw [List.map_map, List.length_nil, Nat.zero_add] at hstarts
  have hpositions : kind.places name (Tag.all ((blank lines).getD i [])) =
      startsOf name first.length others := (List.map_id _).symm.trans hstarts
  rw [hpositions] at hplaces ⊢
  have hothers : others ≠ [] := by
    rintro rfl
    exact hplaces rfl
  exact ⟨i, kind, name, first, others, _, rfl, hline, hothers, hpositions,
    lowered_joined_eq_iff hothers hname hchars hbounds⟩

example : lowered "<Aİ></Aİ>".toList "Aİ".toList [1, 6] = "<ai\u0307><ai\u0307İ>".toList := by decide

end Reports

end TagCase

end LineLint
