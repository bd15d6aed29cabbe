import LineLint.Proofs.AttributeSearch
import LineLint.Proofs.CapturedText

/-!
# Where tags stand

A tag and its attributes are found where their parts stand: the text at each place that is told is
the part itself. The attributes are searched for in the text of the tag between its name and its
end, so their places are counted from there and moved to where that text starts in the line.
-/

namespace LineLint

theorem Text.slice_of_eq {t before part after : Text} {i : Nat} (ht : t = before ++ part ++ after)
    (hi : i = before.length) : t.slice i (i + part.length) = part := by
  rw [ht, hi, Text.slice, ← List.length_append, List.take_left, List.drop_left]

namespace Pattern

variable {p : Pattern} {t : Text} {m : Match} {c d : Cursor} {name : String}

section Order

variable {position resume : Nat} {previous : Option Char}

/-- No match starts in what an earlier one takes up. -/
theorem resume_le_start_of_mem_findFrom (hm : m ∈ p.findFrom position resume previous t) :
    resume ≤ m.start := by
  induction t generalizing position previous with
  | nil =>
      have hstart := le_start_of_mem_findFrom hm
      rw [findFrom] at hm
      split_ifs at hm with hresume
      · cases hm
      · exact (Nat.not_lt.mp hresume).trans hstart
  | cons x rest ih =>
      have hstart := le_start_of_mem_findFrom hm
      rw [findFrom] at hm
      split_ifs at hm with hresume
      · exact ih hm
      · exact (Nat.not_lt.mp hresume).trans hstart

/-- Two matches at one place are an empty one and a proper one behind it. -/
theorem matchesAt_cases (p : Pattern) (c : Cursor) :
    p.matchesAt c = [] ∨ (∃ m, p.matchesAt c = [m]) ∨
      ∃ m m', p.matchesAt c = [m, m'] ∧ m.stop ≤ c.position ∧ c.position < m'.stop := by
  cases hfirst : p.first? c with
  | none => exact Or.inl (by rw [matchesAt, hfirst])
  | some m =>
      have hmatches : p.matchesAt c =
          if m.start < m.stop then [m] else m :: (p.firstProper? c).toList := by
        rw [matchesAt, hfirst]
      have hstart : m.start = c.position :=
        start_of_mem_matchesAt (p := p) (by rw [hmatches]; split_ifs <;> exact List.mem_cons_self)
      by_cases hproper : m.start < m.stop
      · exact Or.inr (Or.inl ⟨m, hmatches.trans (if_pos hproper)⟩)
      · rw [if_neg hproper] at hmatches
        cases hsecond : p.firstProper? c with
        | none => exact Or.inr (Or.inl ⟨m, by rw [hmatches, hsecond]; rfl⟩)
        | some m' =>
            rw [firstProper?, firstWith_eq_findSome?] at hsecond
            obtain ⟨e, -, he⟩ := List.exists_of_findSome?_eq_some hsecond
            split_ifs at he with hlonger
            obtain rfl := Option.some.inj he
            refine Or.inr (Or.inr ⟨m, matchOf c e, ?_, hstart ▸ Nat.not_lt.mp hproper, hlonger⟩)
            rw [hmatches, firstProper?, firstWith_eq_findSome?, hsecond]
            rfl

theorem pairwise_matchesAt (p : Pattern) (c : Cursor) :
    (p.matchesAt c).Pairwise (fun m m' => m.stop ≤ m'.start) ∧
      ∀ m ∈ p.matchesAt c, m.stop ≤ ((p.matchesAt c).getLast?.map (·.stop)).getD c.position := by
  rcases matchesAt_cases p c with hnone | ⟨m, hone⟩ | ⟨m, m', htwo, hstop, hlonger⟩
  · simp [hnone]
  · simp [hone]
  · have hstart : m'.start = c.position := start_of_mem_matchesAt (p := p) (by simp [htwo])
    rw [htwo]
    refine ⟨by simpa [hstart] using hstop, ?_⟩
    simpa using hstop.trans hlonger.le

theorem pairwise_findFrom (p : Pattern) (position resume : Nat) (previous : Option Char)
    (t : Text) :
    (p.findFrom position resume previous t).Pairwise fun m m' => m.stop ≤ m'.start := by
  induction t generalizing position resume previous with
  | nil =>
      rw [findFrom]
      split_ifs
      · exact List.Pairwise.nil
      · exact (pairwise_matchesAt p _).1
  | cons x rest ih =>
      rw [findFrom]
      split_ifs
      · exact ih (position + 1) resume (some x)
      · obtain ⟨hhere, hlast⟩ := pairwise_matchesAt p ⟨position, previous, x :: rest, []⟩
        refine List.pairwise_append.mpr ⟨hhere, ih (position + 1) _ (some x), ?_⟩
        intro m hm m' hm'
        exact (hlast m hm).trans (resume_le_start_of_mem_findFrom hm')

theorem pairwise_findAll (p : Pattern) (t : Text) :
    (p.findAll t).Pairwise fun m m' => m.stop ≤ m'.start :=
  pairwise_findFrom p 0 0 none t

end Order

/-- What was captured under a name stays, where no group of that name follows. -/
theorem capture?_of_mem_results (hp : p.bodiesOf name = []) (h : d ∈ p.results c) :
    d.capture? name = c.capture? name := by
  induction p generalizing c d with
  | empty => rw [List.mem_singleton.mp h]
  | one q => rw [Cursor.capture?, Cursor.groups_of_step? (Option.mem_toList.mp h), Cursor.capture?]
  | seq first second ihf ihs =>
      obtain ⟨hfirst, hsecond⟩ := List.append_eq_nil_iff.mp hp
      obtain ⟨middle, hmiddle, h⟩ := List.mem_flatMap.mp h
      rw [ihs hsecond h, ihf hfirst hmiddle]
  | alt first second ihf ihs =>
      obtain ⟨hfirst, hsecond⟩ := List.append_eq_nil_iff.mp hp
      rcases List.mem_append.mp h with h | h
      · exact ihf hfirst h
      · exact ihs hsecond h
  | many greedy limit body ih =>
      exact of_mem_repeated (P := fun d => d.capture? name = c.capture? name)
        (fun _ _ hc hd => (ih hp hd).trans hc) rfl h
  | group other body ih =>
      obtain ⟨inner, hinner, rfl⟩ := List.mem_map.mp h
      rw [bodiesOf] at hp
      split_ifs at hp with hname
      rw [Cursor.capture?_record_of_ne (Ne.symm hname), ih hp hinner]
  | again other same =>
      rw [results] at h
      split at h
      · rw [Cursor.capture?, Cursor.groups_of_stepText? (Option.mem_toList.mp h), Cursor.capture?]
      · cases h
  | edge e => rw [eq_of_mem_edge h]

theorem exists_quoted_of_mem_quotedBy {quote : Char} {q : Char → Bool}
    (hq : ∀ x, q x = true → x ≠ quote) (h : d ∈ (quotedBy quote q).results c) :
    ∃ inner, quote ∉ inner ∧ Cursor.Passes (quote :: (inner ++ [quote])) c d := by
  obtain ⟨e, he, hlast⟩ := mem_results_append_iff.mp h
  obtain ⟨b, hfirst, hinside⟩ := mem_results_append_iff.mp he
  obtain ⟨x, hx, hopening⟩ := passes_of_mem_one hfirst
  obtain ⟨y, hy, hclosing⟩ := passes_of_mem_one hlast
  obtain ⟨inner, hinner⟩ := passes_of_mem_results hinside
  rw [eq_of_beq hx] at hopening
  rw [eq_of_beq hy] at hclosing
  refine ⟨inner, fun hmem => ?_, hopening.trans (hinner.trans hclosing)⟩
  exact hq quote (forall_of_mem_star_one hinside hinner quote hmem) rfl

end Pattern

def Attribute.IsValue (v : Text) : Prop :=
  (∃ quote inner, WrittenTag.isQuote quote = true ∧ quote ∉ inner ∧
    v = quote :: (inner ++ [quote])) ∨
  (v ≠ [] ∧ ∀ c ∈ v, Tag.isPlainValueChar c = true)

namespace Attribute

def stop (a : Attribute) : Nat :=
  match a.value with
  | none => a.start + a.name.length
  | some c => c.start + c.text.length

structure StandsIn (line : Text) (a : Attribute) : Prop where
  start_lt_stop : a.start < a.stop
  name : line.slice a.start (a.start + a.name.length) = a.name
  value : ∀ c ∈ a.value, a.start + a.name.length < c.start ∧ IsValue c.text ∧
    line.slice c.start (c.start + c.text.length) = c.text

variable {name gap : Text} {c : Capture}

theorem standsIn_of_name (before : Text) (hname : name ≠ []) (after : Text) :
    StandsIn (before ++ name ++ after) ⟨name, before.length, none⟩ where
  start_lt_stop := Nat.lt_add_of_pos_right (List.length_pos_of_ne_nil hname)
  name := Text.slice_of_eq rfl rfl
  value := fun _ h => by cases h

theorem standsIn_of_value (before : Text) (hname : name ≠ []) (hgap : gap ≠ [])
    (hvalue : IsValue c.text) (hstart : c.start = (before ++ name ++ gap).length) (after : Text) :
    StandsIn (before ++ name ++ (gap ++ c.text ++ after)) ⟨name, before.length, some c⟩ := by
  have hnamelong := List.length_pos_of_ne_nil hname
  have hgaplong := List.length_pos_of_ne_nil hgap
  have hplace : c.start = before.length + name.length + gap.length := by
    rw [hstart, List.length_append, List.length_append]
  refine ⟨?_, Text.slice_of_eq rfl rfl, ?_⟩
  · change before.length < c.start + c.text.length
    omega
  · rintro _ ⟨⟩
    have hline : before ++ name ++ (gap ++ c.text ++ after) =
        before ++ name ++ gap ++ c.text ++ after := by simp only [List.append_assoc]
    refine ⟨?_, hvalue, Text.slice_of_eq hline hstart⟩
    change before.length + name.length < c.start
    omega

end Attribute

namespace Tag

open Pattern
open Attribute (IsValue)

variable {c d : Cursor} {m : Match} {body : Text}

/-- A tag that stands in a text where it is told to, with its attributes between its name and its
end. -/
structure StandsIn (text : Text) (t : Tag) : Prop where
  opening : text[t.start]? = some '<'
  ending : text[t.stop - 1]? = some '>'
  start_lt : t.start < t.nameStart
  nameStop_lt : t.nameStop < t.stop
  name : text.slice t.nameStart (t.nameStart + t.name.length) = t.name
  attributes : ∀ a ∈ t.attributes, a.StandsIn text ∧ t.nameStop ≤ a.start ∧ a.stop < t.stop
  increasing : t.attributes.Pairwise fun a b => a.start < b.start ∧ a.stop ≤ b.start

section Attributes

theorem exists_isValue_of_mem_results
    (h : d ∈ (quotedValue ||| plus (one isPlainValueChar)).results c) :
    ∃ value, IsValue value ∧ Cursor.Passes value c d := by
  rcases List.mem_append.mp h with hquoted | hplain
  · rw [WrittenTag.quotedValue_eq] at hquoted
    have hvalue {quote : Char} {q : Char → Bool} (hquote : WrittenTag.isQuote quote = true)
        (hq : ∀ x, q x = true → x ≠ quote) (h : d ∈ (quotedBy quote q).results c) :
        ∃ value, IsValue value ∧ Cursor.Passes value c d := by
      obtain ⟨inner, hinner, hpasses⟩ := exists_quoted_of_mem_quotedBy hq h
      exact ⟨_, Or.inl ⟨quote, inner, hquote, hinner, rfl⟩, hpasses⟩
    rcases List.mem_append.mp hquoted with hdouble | hsingle
    · exact hvalue rfl (fun x hx => by simpa using hx) hdouble
    · exact hvalue rfl (fun x hx => by simpa using hx) hsingle
  · obtain ⟨e, hfirst, hothers⟩ := mem_results_append_iff.mp hplain
    obtain ⟨x, hx, hfirst⟩ := passes_of_mem_one hfirst
    obtain ⟨more, hmore⟩ := passes_of_mem_results hothers
    refine ⟨x :: more, Or.inr ⟨List.cons_ne_nil x more, ?_⟩, hfirst.trans hmore⟩
    exact List.forall_mem_cons.mpr ⟨hx, forall_of_mem_star_one hothers hmore⟩

theorem exists_value_of_mem_results (h : d ∈ valuePattern.results c) :
    ∃ gap value, gap ≠ [] ∧ IsValue value.text ∧ c.Passes (gap ++ value.text) d ∧
      value.start = c.position + gap.length ∧ d.capture? "value" = some value := by
  obtain ⟨start, hstart, hvalue⟩ := mem_results_append_iff.mp h
  obtain ⟨behind, hbehind, hright⟩ := mem_results_append_iff.mp hstart
  obtain ⟨sign, hleft, hsign⟩ := mem_results_append_iff.mp hbehind
  obtain ⟨left, hleft⟩ := passes_of_mem_results hleft
  obtain ⟨x, -, hx⟩ := passes_of_mem_one hsign
  obtain ⟨right, hright⟩ := passes_of_mem_results hright
  have hgap : c.Passes (left ++ ([x] ++ right)) start := hleft.trans (hx.trans hright)
  obtain ⟨last, hlast, rfl⟩ := List.mem_map.mp hvalue
  obtain ⟨value, hvalue, hpasses⟩ := exists_isValue_of_mem_results hlast
  have htext : (Capture.mk start.position start.rest (last.position - start.position)).text =
      value := Option.some.inj (hpasses.capture?_record "value")
  refine ⟨left ++ ([x] ++ right), _, by simp, by rwa [htext], ?_, hgap.position, rfl⟩
  rw [htext]
  exact hgap.trans (hpasses.record "value" start)

/-- An attribute is a name, or a name and a value somewhere behind it. -/
theorem exists_parts_of_mem_results (hgroups : c.groups = [])
    (h : d ∈ attributePattern.results c) :
    ∃ name tail, name ≠ [] ∧ c.Passes (name ++ tail) d ∧
      d.capture? "name" = some ⟨c.position, c.rest, name.length⟩ ∧
      (tail = [] ∧ d.capture? "value" = none ∨
        ∃ gap value, tail = gap ++ value.text ∧ gap ≠ [] ∧ IsValue value.text ∧
          value.start = c.position + name.length + gap.length ∧
          d.capture? "value" = some value) := by
  obtain ⟨e, hname, htail⟩ := mem_results_append_iff.mp h
  have hkept : d.capture? "name" = e.capture? "name" := capture?_of_mem_results rfl htail
  have hnone : e.capture? "value" = none := by
    have hbefore : e.capture? "value" = c.capture? "value" := capture?_of_mem_results rfl hname
    rw [hbefore, Cursor.capture?, hgroups]
    rfl
  obtain ⟨inner, hinner, rfl⟩ := List.mem_map.mp hname
  obtain ⟨middle, hfirst, hothers⟩ := List.mem_flatMap.mp hinner
  obtain ⟨x, -, hx⟩ := passes_of_mem_one hfirst
  obtain ⟨more, hmore⟩ := passes_of_mem_results hothers
  have hpasses : c.Passes (x :: more) inner := hx.trans hmore
  have hnamed : c.Passes (x :: more) (inner.record "name" c) := hpasses.record "name" c
  have hcapture : d.capture? "name" = some ⟨c.position, c.rest, (x :: more).length⟩ := by
    rw [hkept, Cursor.capture?, Cursor.record, List.lookup_cons, beq_self_eq_true]
    simp only [hpasses.position, Nat.add_sub_cancel_left]
  rcases List.mem_append.mp htail with hvalue | hnothing
  · obtain ⟨gap, value, hgap, hvalue, hbehind, hstart, hsome⟩ := exists_value_of_mem_results hvalue
    rw [hnamed.position] at hstart
    exact ⟨x :: more, gap ++ value.text, List.cons_ne_nil x more, hnamed.trans hbehind, hcapture,
      Or.inr ⟨gap, value, rfl, hgap, hvalue, hstart, hsome⟩⟩
  · obtain rfl := List.mem_singleton.mp hnothing
    exact ⟨x :: more, [], List.cons_ne_nil x more, (List.append_nil (x :: more)).symm ▸ hnamed,
      hcapture, Or.inl ⟨rfl, hnone⟩⟩

theorem standsIn_attributeOf (front back : Text) (hm : m ∈ attributePattern.findAll body) :
    (attributeOf front.length m).StandsIn (front ++ body ++ back) ∧
      (attributeOf front.length m).start = front.length + m.start ∧
      (attributeOf front.length m).stop = front.length + m.stop ∧ m.stop ≤ body.length := by
  obtain ⟨before, taken, after, d, rfl, hstart, hstop, hgroups, hpasses, hd⟩ :=
    exists_results_of_mem_findAll hm
  obtain ⟨name, tail, hname, hparts, hcapture, hvalue⟩ := exists_parts_of_mem_results rfl hd
  obtain rfl := hpasses.eq hparts
  have hattribute : attributeOf front.length m = ⟨name, (front ++ before).length,
      (d.capture? "value").map fun c => { c with start := front.length + c.start }⟩ := by
    have hsame (n : String) : m.capture? n = d.capture? n := by
      rw [Match.capture?, hgroups, Cursor.capture?]
    rw [attributeOf, Match.text, Match.startOf, hsame, hsame, hcapture]
    simp [Capture.text, List.append_assoc]
  have hbound : m.stop ≤ (before ++ (name ++ tail) ++ after).length := by
    rw [hstop, ← List.length_append]
    exact (List.prefix_append _ _).length_le
  rw [hattribute, hstart, List.length_append]
  rcases hvalue with ⟨rfl, hnone⟩ | ⟨gap, value, rfl, hgap, hvalue, hplace, hsome⟩
  · have hstands := Attribute.standsIn_of_name (front ++ before) hname (after ++ back)
    rw [List.length_append] at hstands
    rw [hnone]
    refine ⟨?_, rfl, ?_, hbound⟩
    · simpa using hstands
    · rw [hstop, List.append_nil, ← Nat.add_assoc]
      rfl
  · let moved : Capture := { value with start := front.length + value.start }
    have hmoved : moved.start = (front ++ before ++ name ++ gap).length := by
      simp [moved, hplace, Nat.add_assoc]
    have hisvalue : IsValue moved.text := hvalue
    have hstands := Attribute.standsIn_of_value (front ++ before) hname hgap hisvalue hmoved
      (after ++ back)
    have hline : front ++ (before ++ (name ++ (gap ++ value.text)) ++ after) ++ back =
        front ++ before ++ name ++ (gap ++ moved.text ++ (after ++ back)) := by
      simp only [List.append_assoc]
      rfl
    rw [← hline, List.length_append] at hstands
    rw [hsome]
    refine ⟨hstands, rfl, ?_, hbound⟩
    · change moved.start + value.text.length = _
      rw [hmoved, hstop]
      simp only [List.length_append, Nat.add_assoc]

end Attributes

section Tags

open TagPiece (tagsFrom textOf)

variable {t : Tag} {ps : List TagPiece}

theorem pairwise_attributeOf (front body : Text) :
    ((attributePattern.findAll body).map (attributeOf front.length)).Pairwise
      fun a b => a.start < b.start ∧ a.stop ≤ b.start := by
  refine List.pairwise_map.mpr ((pairwise_findAll attributePattern body).imp_of_mem ?_)
  intro m m' hm hm' hle
  obtain ⟨hstands, -, hstop, -⟩ := standsIn_attributeOf front [] hm
  obtain ⟨-, hstart, -, -⟩ := standsIn_attributeOf front [] hm'
  have hbehind : (attributeOf front.length m).stop ≤ (attributeOf front.length m').start := by
    rw [hstop, hstart]
    exact Nat.add_le_add_left hle _
  exact ⟨hstands.start_lt_stop.trans_le hbehind, hbehind⟩

theorem standsIn_tagAt (w : WrittenTag) (before after : Text) :
    (w.tagAt before.length).StandsIn (before ++ (w.text ++ after)) := by
  let front := before ++ w.opening ++ w.name
  let behind := WrittenTag.ending w.isSelfClosing ++ after
  have hline : before ++ (w.text ++ after) = front ++ w.body ++ behind := by
    simp [front, behind, WrittenTag.text]
  have hopening : before.length + w.opening.length = (before ++ w.opening).length :=
    List.length_append.symm
  have hfront : before.length + w.opening.length + w.name.length = front.length := by
    rw [hopening, ← List.length_append]
  have hstop : before.length + w.text.length =
      front.length + w.body.length + (WrittenTag.slash w.isSelfClosing).length + 1 := by
    simp [front, WrittenTag.text, WrittenTag.ending]
    omega
  constructor
  · simp [WrittenTag.tagAt, WrittenTag.text, WrittenTag.opening]
  · have hlast : before ++ (w.text ++ after) =
        front ++ w.body ++ WrittenTag.slash w.isSelfClosing ++ ('>' :: after) := by
      rw [hline]
      simp [behind, WrittenTag.ending]
    have hplace : (w.tagAt before.length).stop - 1 =
        (front ++ w.body ++ WrittenTag.slash w.isSelfClosing).length := by
      rw [List.length_append, List.length_append]
      exact congrArg (· - 1) hstop
    rw [hlast, hplace, List.getElem?_append_right (Nat.le_refl _), Nat.sub_self]
    rfl
  · exact Nat.lt_add_of_pos_right (Nat.succ_pos _)
  · change before.length + w.opening.length + w.name.length < before.length + w.text.length
    omega
  · have hname : before ++ (w.text ++ after) =
        before ++ w.opening ++ w.name ++ (w.body ++ behind) := by
      rw [hline, List.append_assoc]
    exact Text.slice_of_eq hname hopening
  · rw [hline]
    refine List.forall_mem_map.mpr fun m hm => ?_
    rw [hfront]
    obtain ⟨hstands, hstart, hplace, hbound⟩ := standsIn_attributeOf front behind hm
    refine ⟨hstands, ?_, ?_⟩
    · rw [hstart]
      exact hfront.le.trans (Nat.le_add_right _ _)
    · change _ < before.length + w.text.length
      rw [hplace]
      omega
  · change ((attributePattern.findAll w.body).map (attributeOf _)).Pairwise _
    rw [hfront]
    exact pairwise_attributeOf front w.body

theorem standsIn_of_mem_tagsFrom (before : Text) (ht : t ∈ tagsFrom before.length ps) :
    t.StandsIn (before ++ textOf ps) := by
  induction ps generalizing before with
  | nil => cases ht
  | cons p ps ih =>
      rw [TagPiece.textOf_cons]
      cases p with
      | plain c =>
          rw [← List.append_assoc]
          refine ih (before ++ [c]) ?_
          rwa [List.length_append]
      | tag w =>
          rcases List.mem_cons.mp ht with rfl | ht
          · exact standsIn_tagAt w before (textOf ps)
          · rw [← List.append_assoc]
            refine ih (before ++ w.text) ?_
            rwa [List.length_append]

/-- The tags of a line stand in it one behind the other, each with its name and its attributes. -/
theorem all_standsIn (line : Text) :
    (all line).Pairwise (fun s t => s.start < t.start ∧ s.stop ≤ t.start) ∧
      ∀ t ∈ all line, t.StandsIn line := by
  have hstands : ∀ t ∈ all line, t.StandsIn line := by
    obtain ⟨ps, hreading, rfl⟩ := TagPiece.exists_isReading line
    rw [TagPiece.all_textOf hreading]
    exact fun t ht => standsIn_of_mem_tagsFrom [] ht
  refine ⟨?_, hstands⟩
  have horder : (all line).Pairwise fun s t => s.stop ≤ t.start :=
    List.pairwise_map.mpr (pairwise_findAll pattern line)
  refine horder.imp_of_mem fun {s t} hs _ hst => ⟨?_, hst⟩
  have hs := hstands s hs
  exact hs.start_lt.trans_le ((Nat.le_add_right _ _).trans (hs.nameStop_lt.le.trans hst))

example : (all "<br/> <a href='>'>".toList).map
    (fun t => (t.start, t.stop, t.attributes.map (·.start))) = [(0, 5, []), (6, 18, [9])] := by
  decide +kernel

end Tags

end Tag

end LineLint
