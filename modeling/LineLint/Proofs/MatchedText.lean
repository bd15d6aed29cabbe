import LineLint.PatternSearch
import Mathlib.Data.List.Basic

/-!
# Matched text

A match takes up a part of the text that is searched: the cursor passes over it, character by
character. What a pattern asks of single characters is therefore said of the text between the start
and the stop of each of its matches.
-/

namespace LineLint

namespace Cursor

/-- A cursor has moved over `taken`, from the place of `c` to that of `d`. -/
structure Passes (taken : Text) (c d : Cursor) : Prop where
  rest : c.rest = taken ++ d.rest
  position : d.position = c.position + taken.length
  previous : d.previous = taken.getLast?.or c.previous

variable {c d e : Cursor} {taken more : Text}

theorem previous_cons (x : Char) (t : Text) (previous : Option Char) :
    (x :: t).getLast?.or previous = t.getLast?.or (some x) := by
  rw [List.getLast?_cons]
  cases t.getLast? <;> rfl

theorem Passes.refl (c : Cursor) : Passes [] c c := ⟨rfl, rfl, rfl⟩

theorem Passes.trans (h : Passes taken c d) (hmore : Passes more d e) :
    Passes (taken ++ more) c e := by
  refine ⟨?_, ?_, ?_⟩
  · rw [h.rest, hmore.rest, List.append_assoc]
  · rw [hmore.position, h.position, List.length_append, Nat.add_assoc]
  · rw [hmore.previous, h.previous, List.getLast?_append, Option.or_assoc]

theorem Passes.eq (h : Passes taken c d) (hother : Passes more c d) : taken = more := by
  have hrest := h.rest
  rw [hother.rest] at hrest
  exact (List.append_cancel_right hrest).symm

theorem passes_of_step? {p : Char → Bool} (h : c.step? p = some d) :
    ∃ x, p x = true ∧ Passes [x] c d := by
  unfold step? at h
  split at h
  · cases h
  · rename_i x rest hrest
    split_ifs at h with hx
    obtain rfl := Option.some.inj h
    exact ⟨x, hx, hrest, rfl, rfl⟩

theorem passes_of_stepText? {same : Char → Char → Bool} {captured : Text}
    (h : stepText? same captured c = some d) : ∃ taken, Passes taken c d := by
  induction captured generalizing c with
  | nil => exact ⟨[], Option.some.inj h ▸ Passes.refl c⟩
  | cons x captured ih =>
      obtain ⟨next, hnext, h⟩ := Option.bind_eq_some_iff.mp h
      obtain ⟨y, -, hy⟩ := passes_of_step? hnext
      obtain ⟨taken, htaken⟩ := ih h
      exact ⟨[y] ++ taken, hy.trans htaken⟩

theorem Passes.record (h : Passes taken c d) (name : String) (start : Cursor) :
    Passes taken c (d.record name start) :=
  ⟨h.rest, h.position, h.previous⟩

end Cursor

namespace Pattern

variable {c d : Cursor}

theorem mem_results_append_iff {first second : Pattern} :
    d ∈ (first ++ second).results c ↔ ∃ e ∈ first.results c, d ∈ second.results e :=
  List.mem_flatMap

theorem passes_of_mem_one {p : Char → Bool} (h : d ∈ (one p).results c) :
    ∃ x, p x = true ∧ Cursor.Passes [x] c d :=
  Cursor.passes_of_step? (Option.mem_toList.mp h)

/-- What holds of no characters, and of two parts together if of each of them, holds of what some
rounds pass over if it does of each round. -/
theorem exists_passes_of_mem_repeated {P : Text → Prop} (hnil : P [])
    (happend : ∀ taken more, P taken → P more → P (taken ++ more)) {greedy : Bool}
    {step : Cursor → List Cursor}
    (hstep : ∀ c d, d ∈ step c → ∃ taken, Cursor.Passes taken c d ∧ P taken) {rounds : Nat}
    (h : d ∈ repeated greedy step rounds c) : ∃ taken, Cursor.Passes taken c d ∧ P taken := by
  induction rounds generalizing c with
  | zero => exact ⟨[], List.mem_singleton.mp h ▸ Cursor.Passes.refl d, hnil⟩
  | succ rounds ih =>
      have hcases : d = c ∨ ∃ next ∈ step c, d ∈ repeated greedy step rounds next := by
        simp only [repeated] at h
        split_ifs at h <;> simp only [List.mem_append, List.mem_cons, List.not_mem_nil, or_false,
          List.mem_flatMap, List.mem_filter] at h
        · rcases h with ⟨next, ⟨hnext, -⟩, h⟩ | h
          · exact Or.inr ⟨next, hnext, h⟩
          · exact Or.inl h
        · rcases h with h | ⟨next, ⟨hnext, -⟩, h⟩
          · exact Or.inl h
          · exact Or.inr ⟨next, hnext, h⟩
      rcases hcases with rfl | ⟨next, hnext, h⟩
      · exact ⟨[], Cursor.Passes.refl d, hnil⟩
      · obtain ⟨taken, htaken, hround⟩ := hstep c next hnext
        obtain ⟨more, hmore, hrounds⟩ := ih h
        exact ⟨taken ++ more, htaken.trans hmore, happend taken more hround hrounds⟩

theorem passes_of_mem_repeated {greedy : Bool} {step : Cursor → List Cursor}
    (hstep : ∀ c d, d ∈ step c → ∃ taken, Cursor.Passes taken c d) {rounds : Nat}
    (h : d ∈ repeated greedy step rounds c) : ∃ taken, Cursor.Passes taken c d := by
  obtain ⟨taken, htaken, -⟩ := exists_passes_of_mem_repeated (P := fun _ => True) trivial
    (fun _ _ _ _ => trivial) (fun c d hd => (hstep c d hd).imp fun _ h => ⟨h, trivial⟩) h
  exact ⟨taken, htaken⟩

theorem passes_of_mem_results {p : Pattern} (h : d ∈ p.results c) :
    ∃ taken, Cursor.Passes taken c d := by
  induction p generalizing c d with
  | empty => exact ⟨[], List.mem_singleton.mp h ▸ Cursor.Passes.refl d⟩
  | one p =>
      obtain ⟨x, -, hx⟩ := passes_of_mem_one h
      exact ⟨[x], hx⟩
  | seq first second ihf ihs =>
      obtain ⟨middle, hmiddle, h⟩ := List.mem_flatMap.mp h
      obtain ⟨taken, htaken⟩ := ihf hmiddle
      obtain ⟨more, hmore⟩ := ihs h
      exact ⟨taken ++ more, htaken.trans hmore⟩
  | alt first second ihf ihs =>
      rcases List.mem_append.mp h with h | h
      · exact ihf h
      · exact ihs h
  | many greedy limit body ih => exact passes_of_mem_repeated (fun _ _ h => ih h) h
  | group name body ih =>
      obtain ⟨inner, hinner, rfl⟩ := List.mem_map.mp h
      obtain ⟨taken, htaken⟩ := ih hinner
      exact ⟨taken, htaken.record name c⟩
  | again name same =>
      rw [results] at h
      split at h
      · exact Cursor.passes_of_stepText? (Option.mem_toList.mp h)
      · cases h
  | edge e =>
      rw [results] at h
      split_ifs at h
      · exact ⟨[], List.mem_singleton.mp h ▸ Cursor.Passes.refl d⟩
      · cases h

theorem eq_of_mem_edge {e : Edge} (h : d ∈ (edge e).results c) : d = c := by
  rw [results] at h
  split_ifs at h
  · exact List.mem_singleton.mp h
  · cases h

/-- Whether a pattern has no class for some character, and takes up no text of an earlier group. -/
def avoids (x : Char) : Pattern → Bool
  | empty => true
  | one p => !p x
  | seq first second => first.avoids x && second.avoids x
  | alt first second => first.avoids x && second.avoids x
  | many _ _ body => body.avoids x
  | group _ body => body.avoids x
  | again _ _ => false
  | edge _ => true

theorem exists_passes_of_avoids {p : Pattern} {x : Char} (hp : p.avoids x = true)
    (h : d ∈ p.results c) : ∃ taken, Cursor.Passes taken c d ∧ x ∉ taken := by
  have hjoin : ∀ taken more : Text, x ∉ taken → x ∉ more → x ∉ taken ++ more := by
    intro taken more htaken hmore hmem
    exact (List.mem_append.mp hmem).elim htaken hmore
  induction p generalizing c d with
  | empty => exact ⟨[], List.mem_singleton.mp h ▸ Cursor.Passes.refl d, List.not_mem_nil⟩
  | one p =>
      obtain ⟨y, hy, hpasses⟩ := passes_of_mem_one h
      refine ⟨[y], hpasses, fun hmem => ?_⟩
      obtain rfl := List.mem_singleton.mp hmem
      simp [avoids, hy] at hp
  | seq first second ihf ihs =>
      obtain ⟨hfirst, hsecond⟩ := Bool.and_eq_true_iff.mp hp
      obtain ⟨middle, hmiddle, h⟩ := List.mem_flatMap.mp h
      obtain ⟨taken, htaken, hnone⟩ := ihf hfirst hmiddle
      obtain ⟨more, hmore, hnone'⟩ := ihs hsecond h
      exact ⟨taken ++ more, htaken.trans hmore, hjoin taken more hnone hnone'⟩
  | alt first second ihf ihs =>
      obtain ⟨hfirst, hsecond⟩ := Bool.and_eq_true_iff.mp hp
      rcases List.mem_append.mp h with h | h
      · exact ihf hfirst h
      · exact ihs hsecond h
  | many greedy limit body ih =>
      exact exists_passes_of_mem_repeated List.not_mem_nil hjoin (fun _ _ h => ih hp h) h
  | group name body ih =>
      obtain ⟨inner, hinner, rfl⟩ := List.mem_map.mp h
      obtain ⟨taken, htaken, hnone⟩ := ih hp hinner
      exact ⟨taken, htaken.record name c, hnone⟩
  | again name same => cases hp
  | edge e =>
      rw [results] at h
      split_ifs at h
      · exact ⟨[], List.mem_singleton.mp h ▸ Cursor.Passes.refl d, List.not_mem_nil⟩
      · cases h

theorem rest_of_mem_stop {c d : Cursor} (h : d ∈ stop.results c) :
    c.rest = [] ∨ c.rest = ['\n'] := by
  have hholds : Edge.textEnd.holds c.previous c.rest = true := by
    by_contra hnot
    rw [stop, results, if_neg hnot] at h
    cases h
  simpa [Edge.holds] using hholds

theorem passes_of_mem_textPattern {t : Text} (h : d ∈ (textPattern t).results c) :
    Cursor.Passes t c d := by
  induction t generalizing c with
  | nil => exact List.mem_singleton.mp h ▸ Cursor.Passes.refl d
  | cons x t ih =>
      obtain ⟨e, he, htail⟩ := mem_results_append_iff.mp h
      obtain ⟨y, hy, hpasses⟩ := passes_of_mem_one he
      obtain rfl : y = x := by simpa using hy
      exact hpasses.trans (ih htail)

theorem mem_results_choice {ps : List Pattern} (h : d ∈ (choice ps).results c) :
    ∃ p ∈ ps, d ∈ p.results c := by
  induction ps with
  | nil =>
      obtain ⟨x, hx, -⟩ := passes_of_mem_one h
      cases hx
  | cons p ps ih =>
      cases ps with
      | nil => exact ⟨p, by simp, h⟩
      | cons q qs =>
          rcases List.mem_append.mp h with h | h
          · exact ⟨p, by simp, h⟩
          · obtain ⟨r, hr, h⟩ := ih h
            exact ⟨r, List.mem_cons_of_mem p hr, h⟩

section Search

variable {p : Pattern} {t : Text} {m : Match}

theorem mem_results_of_matchesAt (h : m ∈ p.matchesAt c) :
    ∃ d ∈ p.results c, m = matchOf c d := by
  unfold matchesAt at h
  split at h
  · cases h
  · rename_i first hfirst
    rw [first?_eq_head?] at hfirst
    obtain ⟨d, hd, rfl⟩ := Option.map_eq_some_iff.mp hfirst
    have hresult : d ∈ p.results c := List.mem_of_mem_head? hd
    split_ifs at h
    · exact ⟨d, hresult, List.mem_singleton.mp h⟩
    · rcases List.mem_cons.mp h with rfl | h
      · exact ⟨d, hresult, rfl⟩
      · have hproper := Option.mem_toList.mp h
        rw [firstProper?, firstWith_eq_findSome?] at hproper
        obtain ⟨e, he, hm⟩ := List.exists_of_findSome?_eq_some hproper
        split_ifs at hm
        exact ⟨e, he, (Option.some.inj hm).symm⟩

theorem exists_results_of_mem_findFrom {position resume : Nat} {previous : Option Char}
    (h : m ∈ p.findFrom position resume previous t) :
    ∃ before rest d, t = before ++ rest ∧
      d ∈ p.results ⟨position + before.length, before.getLast?.or previous, rest, []⟩ ∧
      m = matchOf ⟨position + before.length, before.getLast?.or previous, rest, []⟩ d := by
  induction t generalizing position resume previous with
  | nil =>
      rw [findFrom] at h
      split_ifs at h
      · cases h
      · obtain ⟨d, hd, rfl⟩ := mem_results_of_matchesAt h
        exact ⟨[], [], d, rfl, hd, rfl⟩
  | cons x rest ih =>
      have hlater {resume : Nat} (h : m ∈ p.findFrom (position + 1) resume (some x) rest) :
          ∃ before others d, x :: rest = before ++ others ∧
            d ∈ p.results ⟨position + before.length, before.getLast?.or previous, others, []⟩ ∧
            m = matchOf ⟨position + before.length, before.getLast?.or previous, others, []⟩ d := by
        obtain ⟨before, others, d, rfl, hd, rfl⟩ := ih h
        have hplace : position + 1 + before.length = position + (x :: before).length := by
          rw [List.length_cons]
          omega
        rw [hplace, ← Cursor.previous_cons x before previous] at hd ⊢
        exact ⟨x :: before, others, d, rfl, hd, rfl⟩
      rw [findFrom] at h
      split_ifs at h
      · exact hlater h
      · rcases List.mem_append.mp h with h | h
        · obtain ⟨d, hd, rfl⟩ := mem_results_of_matchesAt h
          exact ⟨[], x :: rest, d, rfl, hd, rfl⟩
        · exact hlater h

/-- Each match that is found leads from a place in the text over the part that it takes up. -/
theorem exists_results_of_mem_findAll (h : m ∈ p.findAll t) :
    ∃ before taken after d, t = before ++ taken ++ after ∧ m.start = before.length ∧
      m.stop = before.length + taken.length ∧ m.groups = d.groups ∧
      Cursor.Passes taken ⟨before.length, before.getLast?, taken ++ after, []⟩ d ∧
      d ∈ p.results ⟨before.length, before.getLast?, taken ++ after, []⟩ := by
  obtain ⟨before, rest, d, rfl, hd, rfl⟩ := exists_results_of_mem_findFrom h
  rw [Nat.zero_add, Option.or_none] at hd ⊢
  obtain ⟨taken, hpasses⟩ := passes_of_mem_results hd
  obtain rfl : rest = taken ++ d.rest := hpasses.rest
  exact ⟨before, taken, d.rest, d, by rw [List.append_assoc], rfl, hpasses.position, rfl, hpasses,
    hd⟩

theorem matchesStart_iff : p.matchesStart t = true ↔ ∃ d, d ∈ p.results (Cursor.atStart t) := by
  rw [matchesStart, matchStart?, first?_eq_head?, Option.isSome_map]
  cases p.results (Cursor.atStart t) <;> simp

end Search

end Pattern

end LineLint
