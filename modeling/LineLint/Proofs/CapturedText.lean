import LineLint.PatternSearch
import LineLint.Proofs.MatchedText
import Mathlib.Data.List.Basic

/-!
# Captured text

Whatever a group of a pattern captures is a part of the text that is searched. A cursor moves on to
ends of that text only, and a group is recorded from one cursor to another. What a match holds under
the name of a group is a text that the body of such a group has matched.
-/

namespace LineLint

namespace Capture

theorem text_subset_rest (c : Capture) : c.text ⊆ c.rest := List.take_subset ..

end Capture

namespace Cursor

variable {t : Text} {c d : Cursor}

/-- A cursor of which the text ahead, and the text from the start of each group on, are ends of a
given text. -/
structure IsWithin (t : Text) (c : Cursor) : Prop where
  rest : c.rest <:+ t
  groups : ∀ entry ∈ c.groups, entry.2.rest <:+ t

theorem isWithin_start {rest : Text} (h : rest <:+ t) (position : Nat) (previous : Option Char) :
    IsWithin t ⟨position, previous, rest, []⟩ :=
  ⟨h, List.forall_mem_nil _⟩

theorem IsWithin.step {p : Char → Bool} (h : c.IsWithin t) (hd : c.step? p = some d) :
    d.IsWithin t := by
  unfold step? at hd
  split at hd
  · cases hd
  · rename_i x r hrest
    split_ifs at hd
    obtain rfl := Option.some.inj hd
    have hahead : r <:+ c.rest := hrest ▸ List.suffix_cons x r
    exact ⟨hahead.trans h.rest, h.groups⟩

theorem IsWithin.stepText {same : Char → Char → Bool} {captured : Text} (h : c.IsWithin t)
    (hd : stepText? same captured c = some d) : d.IsWithin t := by
  induction captured generalizing c with
  | nil => exact Option.some.inj hd ▸ h
  | cons x captured ih =>
      obtain ⟨next, hnext, hd⟩ := Option.bind_eq_some_iff.mp hd
      exact ih (h.step hnext) hd

theorem IsWithin.record (hd : d.IsWithin t) (hc : c.IsWithin t) (name : String) :
    (d.record name c).IsWithin t :=
  ⟨hd.rest, List.forall_mem_cons.mpr ⟨hc.rest, hd.groups⟩⟩

end Cursor

namespace Pattern

variable {t : Text} {c d : Cursor}

/-- What each round of a step keeps is kept by some rounds. -/
theorem of_mem_repeated {P : Cursor → Prop} {greedy : Bool} {step : Cursor → List Cursor}
    (hstep : ∀ c d, P c → d ∈ step c → P d) {rounds : Nat} (h : P c)
    (hd : d ∈ repeated greedy step rounds c) : P d := by
  induction rounds generalizing c with
  | zero => exact List.mem_singleton.mp hd ▸ h
  | succ rounds ih =>
      have hcases : d = c ∨ ∃ next ∈ step c, d ∈ repeated greedy step rounds next := by
        simp only [repeated] at hd
        split_ifs at hd <;> simp only [List.mem_append, List.mem_cons, List.not_mem_nil, or_false,
          List.mem_flatMap, List.mem_filter] at hd
        · rcases hd with ⟨next, ⟨hnext, -⟩, hd⟩ | hd
          · exact Or.inr ⟨next, hnext, hd⟩
          · exact Or.inl hd
        · rcases hd with hd | ⟨next, ⟨hnext, -⟩, hd⟩
          · exact Or.inl hd
          · exact Or.inr ⟨next, hnext, hd⟩
      rcases hcases with rfl | ⟨next, hnext, hd⟩
      · exact h
      · exact ih (hstep c next h hnext) hd

theorem isWithin_of_mem_results {p : Pattern} (h : c.IsWithin t) (hd : d ∈ p.results c) :
    d.IsWithin t := by
  induction p generalizing c d with
  | empty => exact List.mem_singleton.mp hd ▸ h
  | one p => exact h.step (Option.mem_toList.mp hd)
  | seq first second ihf ihs =>
      obtain ⟨middle, hmiddle, hd⟩ := List.mem_flatMap.mp hd
      exact ihs (ihf h hmiddle) hd
  | alt first second ihf ihs =>
      rcases List.mem_append.mp hd with hd | hd
      · exact ihf h hd
      · exact ihs h hd
  | many greedy limit body ih =>
      exact of_mem_repeated (fun _ _ hc hd => ih hc hd) h hd
  | group name body ih =>
      obtain ⟨inner, hinner, rfl⟩ := List.mem_map.mp hd
      exact (ih h hinner).record h name
  | again name same =>
      rw [results] at hd
      split at hd
      · exact h.stepText (Option.mem_toList.mp hd)
      · cases hd
  | edge e =>
      rw [results] at hd
      split_ifs at hd
      · exact List.mem_singleton.mp hd ▸ h
      · cases hd

end Pattern

namespace Match

variable {t : Text} {m : Match}

def IsWithin (t : Text) (m : Match) : Prop := ∀ entry ∈ m.groups, entry.2.rest <:+ t

theorem IsWithin.of_suffix {s : Text} (h : m.IsWithin s) (hs : s <:+ t) : m.IsWithin t :=
  fun entry hentry => (h entry hentry).trans hs

theorem IsWithin.capture_subset (h : m.IsWithin t) {name : String} {c : Capture}
    (hc : m.capture? name = some c) : c.text ⊆ t := by
  obtain ⟨before, after, hgroups, -⟩ := List.lookup_eq_some_iff.mp hc
  have hmem : (name, c) ∈ m.groups := by simp [hgroups]
  exact List.Subset.trans c.text_subset_rest (h _ hmem).subset

theorem IsWithin.text_subset (h : m.IsWithin t) (name : String) : m.text name ⊆ t := by
  unfold text
  cases hc : m.capture? name with
  | none => exact List.nil_subset _
  | some c => exact h.capture_subset hc

end Match

namespace Pattern

variable {p : Pattern} {t : Text} {c : Cursor} {m : Match}

theorem isWithin_of_first? (h : c.IsWithin t) (hm : p.first? c = some m) : m.IsWithin t := by
  rw [first?_eq_head?] at hm
  obtain ⟨d, hd, rfl⟩ := Option.map_eq_some_iff.mp hm
  exact (isWithin_of_mem_results h (List.mem_of_mem_head? hd)).groups

theorem isWithin_of_firstProper? (h : c.IsWithin t) (hm : p.firstProper? c = some m) :
    m.IsWithin t := by
  rw [firstProper?, firstWith_eq_findSome?] at hm
  obtain ⟨d, hd, hm⟩ := List.exists_of_findSome?_eq_some hm
  split_ifs at hm
  obtain rfl := Option.some.inj hm
  exact (isWithin_of_mem_results h hd).groups

theorem isWithin_of_mem_matchesAt (h : c.IsWithin t) (hm : m ∈ p.matchesAt c) :
    m.IsWithin t := by
  unfold matchesAt at hm
  split at hm
  · cases hm
  · rename_i first hfirst
    have hwithin : first.IsWithin t := isWithin_of_first? h hfirst
    split_ifs at hm
    · exact List.mem_singleton.mp hm ▸ hwithin
    · rcases List.mem_cons.mp hm with rfl | hm
      · exact hwithin
      · exact isWithin_of_firstProper? h (Option.mem_toList.mp hm)

theorem isWithin_of_mem_findFrom {position resume : Nat} {previous : Option Char} {rest : Text}
    (hrest : rest <:+ t) (hm : m ∈ p.findFrom position resume previous rest) : m.IsWithin t := by
  induction rest generalizing position resume previous with
  | nil =>
      rw [findFrom] at hm
      split_ifs at hm
      · cases hm
      · exact isWithin_of_mem_matchesAt (Cursor.isWithin_start hrest _ _) hm
  | cons x rest ih =>
      have htail : rest <:+ t := (List.suffix_cons x rest).trans hrest
      rw [findFrom] at hm
      split_ifs at hm
      · exact ih htail hm
      · rcases List.mem_append.mp hm with hm | hm
        · exact isWithin_of_mem_matchesAt (Cursor.isWithin_start hrest _ _) hm
        · exact ih htail hm

theorem isWithin_of_mem_findAll (hm : m ∈ p.findAll t) : m.IsWithin t :=
  isWithin_of_mem_findFrom List.suffix_rfl hm

theorem isWithin_of_searchFrom {position : Nat} {previous : Option Char}
    (hm : p.searchFrom position previous t = some m) : m.IsWithin t := by
  induction t generalizing position previous with
  | nil => exact isWithin_of_first? (Cursor.isWithin_start List.suffix_rfl _ _) hm
  | cons x rest ih =>
      rw [searchFrom] at hm
      split at hm
      · rename_i first hfirst
        obtain rfl := Option.some.inj hm
        exact isWithin_of_first? (Cursor.isWithin_start List.suffix_rfl _ _) hfirst
      · exact (ih hm).of_suffix (List.suffix_cons x rest)

theorem isWithin_of_search? (hm : p.search? t = some m) : m.IsWithin t :=
  isWithin_of_searchFrom hm

theorem isWithin_of_matchStart? (hm : p.matchStart? t = some m) : m.IsWithin t :=
  isWithin_of_first? (Cursor.isWithin_start List.suffix_rfl _ _) hm

end Pattern

namespace Cursor

variable {c d : Cursor} {taken : Text} {name : String}

theorem groups_of_step? {p : Char → Bool} (h : c.step? p = some d) : d.groups = c.groups := by
  unfold step? at h
  split at h
  · cases h
  · split_ifs at h
    obtain rfl := Option.some.inj h
    rfl

theorem groups_of_stepText? {same : Char → Char → Bool} {captured : Text}
    (h : stepText? same captured c = some d) : d.groups = c.groups := by
  induction captured generalizing c with
  | nil => exact Option.some.inj h ▸ rfl
  | cons x captured ih =>
      obtain ⟨next, hnext, h⟩ := Option.bind_eq_some_iff.mp h
      rw [ih h, groups_of_step? hnext]

theorem Passes.capture?_record (h : Passes taken c d) (name : String) :
    ((d.record name c).capture? name).map (·.text) = some taken := by
  rw [capture?, Cursor.record, List.lookup_cons, beq_self_eq_true]
  change some (c.rest.take (d.position - c.position)) = some taken
  rw [h.position, Nat.add_sub_cancel_left, h.rest, List.take_left]

theorem capture?_record_of_ne {other : String} (h : name ≠ other) (c d : Cursor) :
    (d.record other c).capture? name = d.capture? name := by
  rw [capture?, record, List.lookup_cons, beq_eq_false_iff_ne.mpr h]
  rfl

/-- A cursor that holds, under a name, only what one of some patterns has matched. -/
def Holds (bodies : List Pattern) (name : String) (c : Cursor) : Prop :=
  ∀ captured, c.capture? name = some captured →
    ∃ body ∈ bodies, ∃ start, ∃ stop ∈ body.results start, Passes captured.text start stop

variable {bodies : List Pattern}

theorem Holds.congr (h : c.Holds bodies name) (hgroups : d.groups = c.groups) :
    d.Holds bodies name := by
  intro captured hcaptured
  rw [capture?, hgroups] at hcaptured
  exact h captured hcaptured

theorem holds_of_groups_eq_nil (h : c.groups = []) : c.Holds bodies name := by
  intro captured hcaptured
  rw [capture?, h] at hcaptured
  cases hcaptured

end Cursor

namespace Pattern

variable {p : Pattern} {c d : Cursor} {name : String} {bodies : List Pattern} {m : Match}
  {t : Text}

def bodiesOf (name : String) : Pattern → List Pattern
  | empty => []
  | one _ => []
  | seq first second => first.bodiesOf name ++ second.bodiesOf name
  | alt first second => first.bodiesOf name ++ second.bodiesOf name
  | many _ _ body => body.bodiesOf name
  | group other body => if other = name then body :: body.bodiesOf name else body.bodiesOf name
  | again _ _ => []
  | edge _ => []

theorem holds_of_mem_results (hbodies : p.bodiesOf name ⊆ bodies) (h : c.Holds bodies name)
    (hd : d ∈ p.results c) : d.Holds bodies name := by
  induction p generalizing c d with
  | empty => exact List.mem_singleton.mp hd ▸ h
  | one p => exact h.congr (Cursor.groups_of_step? (Option.mem_toList.mp hd))
  | seq first second ihf ihs =>
      obtain ⟨hfirst, hsecond⟩ := List.append_subset.mp hbodies
      obtain ⟨middle, hmiddle, hd⟩ := List.mem_flatMap.mp hd
      exact ihs hsecond (ihf hfirst h hmiddle) hd
  | alt first second ihf ihs =>
      obtain ⟨hfirst, hsecond⟩ := List.append_subset.mp hbodies
      rcases List.mem_append.mp hd with hd | hd
      · exact ihf hfirst h hd
      · exact ihs hsecond h hd
  | many greedy limit body ih =>
      exact of_mem_repeated (fun _ _ hc hd => ih hbodies hc hd) h hd
  | group other body ih =>
      obtain ⟨inner, hinner, rfl⟩ := List.mem_map.mp hd
      rw [bodiesOf] at hbodies
      split_ifs at hbodies with hname
      · subst hname
        obtain ⟨hbody, hinside⟩ := List.cons_subset.mp hbodies
        obtain ⟨taken, htaken⟩ := passes_of_mem_results hinner
        intro captured hcaptured
        have htext := htaken.capture?_record other
        rw [hcaptured] at htext
        obtain rfl : captured.text = taken := Option.some.inj htext
        exact ⟨body, hbody, c, inner, hinner, htaken⟩
      · intro captured hcaptured
        rw [Cursor.capture?_record_of_ne (Ne.symm hname)] at hcaptured
        exact ih hbodies h hinner captured hcaptured
  | again name same =>
      rw [results] at hd
      split at hd
      · exact h.congr (Cursor.groups_of_stepText? (Option.mem_toList.mp hd))
      · cases hd
  | edge e => exact eq_of_mem_edge hd ▸ h

theorem exists_results_of_searchFrom {position : Nat} {previous : Option Char}
    (hm : p.searchFrom position previous t = some m) :
    ∃ c, c.groups = [] ∧ ∃ d ∈ p.results c, m = matchOf c d := by
  have hfirst {c : Cursor} {m : Match} (hc : c.groups = []) (hm : p.first? c = some m) :
      ∃ c, c.groups = [] ∧ ∃ d ∈ p.results c, m = matchOf c d := by
    rw [first?_eq_head?] at hm
    obtain ⟨d, hd, rfl⟩ := Option.map_eq_some_iff.mp hm
    exact ⟨c, hc, d, List.mem_of_mem_head? hd, rfl⟩
  induction t generalizing position previous with
  | nil => exact hfirst rfl hm
  | cons x rest ih =>
      rw [searchFrom] at hm
      split at hm
      · rename_i first hfound
        obtain rfl := Option.some.inj hm
        exact hfirst rfl hfound
      · exact ih hm

/-- The text of a group in a match that is found, unless the group took no part. -/
theorem exists_body_of_search? (hm : p.search? t = some m) (hne : m.text name ≠ []) :
    ∃ body ∈ p.bodiesOf name, ∃ start, ∃ stop ∈ body.results start,
      Cursor.Passes (m.text name) start stop := by
  obtain ⟨c, hc, d, hd, rfl⟩ := exists_results_of_searchFrom hm
  have hholds : d.Holds (p.bodiesOf name) name :=
    holds_of_mem_results (List.Subset.refl _) (Cursor.holds_of_groups_eq_nil hc) hd
  cases hcaptured : (matchOf c d).capture? name with
  | none => exact absurd (by rw [Match.text, hcaptured]; rfl) hne
  | some captured =>
      rw [Match.text, hcaptured]
      exact hholds captured hcaptured

section Begins

variable {q : Char → Prop} {first second : Pattern}

def Begins (q : Char → Prop) (p : Pattern) : Prop :=
  ∀ c d taken, d ∈ p.results c → Cursor.Passes taken c d → ∃ x ∈ taken.head?, q x

theorem begins_one {p : Char → Bool} (h : ∀ x, p x = true → q x) : (one p).Begins q := by
  intro c d taken hd htaken
  obtain ⟨x, hx, hpasses⟩ := passes_of_mem_one hd
  have hsplit : taken ++ d.rest = [x] ++ d.rest := htaken.rest.symm.trans hpasses.rest
  rw [List.append_cancel_right hsplit]
  exact ⟨x, rfl, h x hx⟩

theorem Begins.append (h : first.Begins q) (second : Pattern) : (first ++ second).Begins q := by
  intro c d taken hd htaken
  obtain ⟨middle, hmiddle, hd⟩ := mem_results_append_iff.mp hd
  obtain ⟨ahead, hahead⟩ := passes_of_mem_results hmiddle
  obtain ⟨behind, hbehind⟩ := passes_of_mem_results hd
  have hsplit : taken ++ d.rest = ahead ++ behind ++ d.rest :=
    htaken.rest.symm.trans (hahead.trans hbehind).rest
  obtain rfl := List.append_cancel_right hsplit
  obtain ⟨x, hx, hq⟩ := h c middle ahead hmiddle hahead
  exact ⟨x, List.mem_head?_append_of_mem_head? hx, hq⟩

/-- What a group captures begins as the bodies of such groups do. -/
theorem exists_mem_head?_text (hbodies : ∀ body ∈ p.bodiesOf name, body.Begins q)
    (hm : p.search? t = some m) (hne : m.text name ≠ []) : ∃ x ∈ (m.text name).head?, q x := by
  obtain ⟨body, hbody, start, stop, hstop, hpasses⟩ := exists_body_of_search? hm hne
  exact hbodies body hbody start stop _ hstop hpasses

end Begins

end Pattern

end LineLint
