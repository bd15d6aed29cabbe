import LineLint.Proofs.PatternPlaces
import LineLint.Proofs.TrimmedMasks

/-!
# Patterns on code that is cut off

How much is hidden in a literal that is cut off makes no difference to a pattern that passes over no
quote: what it can match stands before the quote, and it sees no further than the quote itself.
-/

namespace LineLint

namespace Cursor

variable {c c' : Cursor} {ahead more more' : Text} {x y : Char}

/-- Two cursors at the same place, with the same text ahead of them up to a character. -/
structure Alike (x : Char) (more more' ahead : Text) (c c' : Cursor) : Prop where
  rest : c.rest = ahead ++ x :: more
  rest' : c'.rest = ahead ++ x :: more'
  position : c'.position = c.position
  previous : c'.previous = c.previous

theorem Alike.holds_eq (h : Alike x more more' ahead c c') (hx : x ≠ '\n') (e : Edge) :
    e.holds c.previous c.rest = e.holds c'.previous c'.rest := by
  have hend (more : Text) : (ahead ++ x :: more).isEmpty = false ∧
      (ahead ++ x :: more == ['\n']) = false := by
    cases ahead with
    | nil => simp [hx]
    | cons y ahead => simp
  have hhead : (ahead ++ x :: more).head? = (ahead ++ x :: more').head? := by
    rw [List.head?_append, List.head?_append]
    rfl
  rw [h.rest, h.rest', h.previous]
  cases e <;> simp only [Edge.holds, hend more, hend more', hhead]

theorem Alike.step? {p : Char → Bool} {d : Cursor} (h : Alike x more more' (y :: ahead) c c')
    (hd : c.step? p = some d) : ∃ d', c'.step? p = some d' ∧ Alike x more more' ahead d d' := by
  unfold Cursor.step? at hd ⊢
  rw [h.rest, List.cons_append] at hd
  rw [h.rest', List.cons_append]
  simp only at hd ⊢
  split_ifs at hd ⊢ with hy
  obtain rfl := Option.some.inj hd
  exact ⟨_, rfl, rfl, rfl, by rw [h.position], rfl⟩

end Cursor

namespace Pattern

open Cursor (Alike Passes)

variable {p q : Pattern} {c c' d : Cursor} {ahead more more' before rest front t : Text} {x : Char}
  {n n' : Nat}

section Alike

theorem exists_alike_of_mem_repeated {greedy : Bool} {step : Cursor → List Cursor}
    (hpasses : ∀ c d, d ∈ step c → ∃ taken, Passes taken c d)
    (hstep : ∀ c c' d ahead, Alike x more more' ahead c c' → d ∈ step c →
      ∃ d' ∈ step c', ∃ left, Alike x more more' left d d')
    {rounds rounds' : Nat} (h : Alike x more more' ahead c c')
    (hd : d ∈ repeated greedy step rounds c) (hrounds : rounds ≤ rounds' ∨ ahead.length ≤ rounds') :
    ∃ d' ∈ repeated greedy step rounds' c', ∃ left, Alike x more more' left d d' := by
  induction rounds generalizing c c' ahead rounds' with
  | zero =>
      obtain rfl := List.mem_singleton.mp hd
      exact ⟨c', mem_repeated_self greedy step rounds' c', ahead, h⟩
  | succ rounds ih =>
      rcases mem_repeated_iff.mp hd with rfl | ⟨e, he, hproper, hlater⟩
      · exact ⟨c', mem_repeated_self greedy step rounds' c', ahead, h⟩
      · obtain ⟨taken, htaken⟩ := hpasses c e he
        obtain ⟨e', he', left, halike⟩ := hstep c c' e ahead h he
        -- a round takes up some of the text ahead, which leaves enough rounds for the others
        have hlength : ahead.length = taken.length + left.length := by
          have hsame := congrArg List.length htaken.rest
          rw [h.rest, halike.rest] at hsame
          simp only [List.length_append, List.length_cons] at hsame
          omega
        have hpos := htaken.position
        obtain ⟨rounds', rfl⟩ : ∃ k, rounds' = k + 1 := ⟨rounds' - 1, by omega⟩
        have henough : rounds ≤ rounds' ∨ left.length ≤ rounds' := by omega
        obtain ⟨d', hd', hleft⟩ := ih halike hlater henough
        refine ⟨d', mem_repeated_iff.mpr (Or.inr ⟨e', he', ?_, hd'⟩), hleft⟩
        rw [h.position, halike.position]
        exact hproper

/-- What a pattern matches before a character that it does not pass over is told by the text up to
that character. -/
theorem exists_alike_of_avoids (hp : p.avoids x = true) (hx : x ≠ '\n')
    (h : Alike x more more' ahead c c') (hd : d ∈ p.results c) :
    ∃ d' ∈ p.results c', ∃ left, Alike x more more' left d d' := by
  induction p generalizing c c' d ahead with
  | empty =>
      obtain rfl := List.mem_singleton.mp hd
      exact ⟨c', List.mem_singleton_self c', ahead, h⟩
  | one p =>
      obtain ⟨y, hy, hpasses⟩ := passes_of_mem_one hd
      cases ahead with
      | nil =>
          have hsame := hpasses.rest
          rw [h.rest] at hsame
          obtain rfl := (List.cons.inj hsame).1
          simp [avoids, hy] at hp
      | cons z ahead =>
          obtain ⟨d', hd', halike⟩ := h.step? (Option.mem_toList.mp hd)
          exact ⟨d', Option.mem_toList.mpr hd', ahead, halike⟩
  | seq first second ihf ihs =>
      obtain ⟨hfirst, hsecond⟩ := Bool.and_eq_true_iff.mp hp
      obtain ⟨e, he, hd⟩ := mem_results_append_iff.mp hd
      obtain ⟨e', he', left, halike⟩ := ihf hfirst h he
      obtain ⟨d', hd', hleft⟩ := ihs hsecond halike hd
      exact ⟨d', mem_results_append_iff.mpr ⟨e', he', hd'⟩, hleft⟩
  | alt first second ihf ihs =>
      obtain ⟨hfirst, hsecond⟩ := Bool.and_eq_true_iff.mp hp
      rcases List.mem_append.mp hd with hd | hd
      · obtain ⟨d', hd', hleft⟩ := ihf hfirst h hd
        exact ⟨d', List.mem_append_left _ hd', hleft⟩
      · obtain ⟨d', hd', hleft⟩ := ihs hsecond h hd
        exact ⟨d', List.mem_append_right _ hd', hleft⟩
  | many greedy limit body ih =>
      refine exists_alike_of_mem_repeated (fun _ _ => passes_of_mem_results)
        (fun c c' d ahead h hd => ih hp h hd) h hd ?_
      cases limit with
      | none =>
          right
          rw [Option.getD_none, h.rest', List.length_append]
          exact Nat.le_add_right _ _
      | some limit => exact Or.inl (Nat.le_refl limit)
  | group name body ih =>
      obtain ⟨inner, hinner, rfl⟩ := List.mem_map.mp hd
      obtain ⟨d', hd', left, halike⟩ := ih hp h hinner
      exact ⟨d'.record name c', List.mem_map_of_mem hd', left, halike.rest, halike.rest',
        halike.position, halike.previous⟩
  | again name same => cases hp
  | edge e =>
      rw [results] at hd
      split_ifs at hd with hholds
      · obtain rfl := List.mem_singleton.mp hd
        refine ⟨c', ?_, ahead, h⟩
        rw [results, ← h.holds_eq hx, if_pos hholds]
        exact List.mem_singleton_self c'
      · cases hd

end Alike

section Places

def consumes : Pattern → Bool
  | empty => false
  | one _ => true
  | seq first second => first.consumes || second.consumes
  | alt first second => first.consumes && second.consumes
  | many _ _ _ => false
  | group _ body => body.consumes
  | again _ _ => false
  | edge _ => false

theorem position_le_of_mem_results (hd : d ∈ p.results c) : c.position ≤ d.position := by
  obtain ⟨taken, htaken⟩ := passes_of_mem_results hd
  rw [htaken.position]
  exact Nat.le_add_right _ _

theorem position_lt_of_consumes (hp : p.consumes = true) (hd : d ∈ p.results c) :
    c.position < d.position := by
  induction p generalizing c d with
  | one p =>
      obtain ⟨x, -, hpasses⟩ := passes_of_mem_one hd
      rw [hpasses.position]
      exact Nat.lt_succ_self _
  | seq first second ihf ihs =>
      obtain ⟨e, he, hd⟩ := mem_results_append_iff.mp hd
      rcases Bool.or_eq_true_iff.mp hp with hfirst | hsecond
      · exact Nat.lt_of_lt_of_le (ihf hfirst he) (position_le_of_mem_results hd)
      · exact Nat.lt_of_le_of_lt (position_le_of_mem_results he) (ihs hsecond hd)
  | alt first second ihf ihs =>
      obtain ⟨hfirst, hsecond⟩ := Bool.and_eq_true_iff.mp hp
      rcases List.mem_append.mp hd with hd | hd
      · exact ihf hfirst hd
      · exact ihs hsecond hd
  | group name body ih =>
      obtain ⟨inner, hinner, rfl⟩ := List.mem_map.mp hd
      have hlt : c.position < inner.position := ih hp hinner
      exact hlt
  | empty => cases hp
  | many => cases hp
  | again => cases hp
  | edge => cases hp

/-- A pattern that takes up something, but neither a character nor anything that is hidden. -/
def staysBefore (x : Char) (p : Pattern) : Bool :=
  p.avoids x && p.avoids maskChar && p.consumes

/-- Such a pattern matches nowhere behind the quote of a literal that is cut off. -/
theorem exists_append_of_results (hp : p.staysBefore x = true)
    (hsplit : front ++ x :: List.replicate n maskChar = before ++ rest)
    (hd : d ∈ p.results ⟨before.length, before.getLast?, rest, []⟩) :
    ∃ ahead, front = before ++ ahead ∧ rest = ahead ++ x :: List.replicate n maskChar := by
  simp only [staysBefore, Bool.and_eq_true] at hp
  obtain ⟨⟨-, hmask⟩, hconsumes⟩ := hp
  rcases List.append_eq_append_iff.mp hsplit with ⟨behind, rfl, hbehind⟩ | ⟨ahead, rfl, hahead⟩
  · cases behind with
    | nil => exact ⟨[], by simp, by simpa using hbehind.symm⟩
    | cons y behind =>
        exfalso
        obtain ⟨taken, htaken, hnone⟩ := exists_passes_of_avoids hmask hd
        have hlt := position_lt_of_consumes hconsumes hd
        rw [htaken.position] at hlt
        obtain ⟨z, others, rfl⟩ : ∃ z others, taken = z :: others :=
          List.exists_cons_of_ne_nil fun hnil => by simp [hnil] at hlt
        have hrest : rest = (z :: others) ++ d.rest := htaken.rest
        have hhidden : z ∈ List.replicate n maskChar := by
          rw [(List.cons.inj hbehind).2, hrest]
          exact List.mem_append_right behind List.mem_cons_self
        exact hnone (by rw [List.eq_of_mem_replicate hhidden]; exact List.mem_cons_self)
  · exact ⟨ahead, rfl, hahead⟩

/-- The matches of such a pattern are alike, however much is hidden. -/
theorem exists_results_of_staysBefore (hp : p.staysBefore x = true) (hx : x ≠ '\n')
    (hsplit : front ++ x :: List.replicate n maskChar = before ++ rest)
    (hd : d ∈ p.results ⟨before.length, before.getLast?, rest, []⟩) (n' : Nat) :
    ∃ rest', front ++ x :: List.replicate n' maskChar = before ++ rest' ∧
      ∃ d' ∈ p.results ⟨before.length, before.getLast?, rest', []⟩, ∃ left,
        Alike x (List.replicate n maskChar) (List.replicate n' maskChar) left d d' := by
  obtain ⟨ahead, rfl, rfl⟩ := exists_append_of_results hp hsplit hd
  simp only [staysBefore, Bool.and_eq_true] at hp
  have halike : Alike x (List.replicate n maskChar) (List.replicate n' maskChar) ahead
      ⟨before.length, before.getLast?, ahead ++ x :: List.replicate n maskChar, []⟩
      ⟨before.length, before.getLast?, ahead ++ x :: List.replicate n' maskChar, []⟩ :=
    ⟨rfl, rfl, rfl, rfl⟩
  exact ⟨_, List.append_assoc .., exists_alike_of_avoids hp.1.1 hx halike hd⟩

theorem occursIn_cutOff (hp : p.staysBefore x = true) (hx : x ≠ '\n') (front : Text) (n n' : Nat)
    (h : p.occursIn (front ++ x :: List.replicate n maskChar) = true) :
    p.occursIn (front ++ x :: List.replicate n' maskChar) = true := by
  obtain ⟨before, rest, d, hsplit, hd⟩ := occursIn_iff.mp h
  obtain ⟨rest', hsplit', d', hd', -⟩ := exists_results_of_staysBefore hp hx hsplit hd n'
  exact occursIn_iff.mpr ⟨before, rest', d', hsplit', hd'⟩

theorem matchesStart_cutOff (hp : p.staysBefore x = true) (hx : x ≠ '\n') (front : Text)
    (n n' : Nat) (h : p.matchesStart (front ++ x :: List.replicate n maskChar) = true) :
    p.matchesStart (front ++ x :: List.replicate n' maskChar) = true := by
  obtain ⟨d, hd⟩ := matchesStart_iff.mp h
  have hsplit : front ++ x :: List.replicate n maskChar =
      [] ++ (front ++ x :: List.replicate n maskChar) := rfl
  obtain ⟨_, rfl, d', hd', -⟩ := exists_results_of_staysBefore hp hx hsplit hd n'
  exact matchesStart_iff.mpr ⟨d', hd'⟩

theorem occursIn_one_cutOff {class' : Char → Bool} (hp : p.staysBefore x = true) (hx : x ≠ '\n')
    (front : Text) (n n' : Nat)
    (h : (p ++ one class').occursIn (front ++ x :: List.replicate n maskChar) = true) :
    (p ++ one class').occursIn (front ++ x :: List.replicate n' maskChar) = true := by
  obtain ⟨before, rest, d, hsplit, hd⟩ := occursIn_iff.mp h
  obtain ⟨e, he, hlast⟩ := mem_results_append_iff.mp hd
  obtain ⟨rest', hsplit', e', he', left, halike⟩ :=
    exists_results_of_staysBefore hp hx hsplit he n'
  obtain ⟨y, hy, hpasses⟩ := passes_of_mem_one hlast
  obtain ⟨others, hnext⟩ : ∃ others, e'.rest = y :: others := by
    have hsame := hpasses.rest
    rw [halike.rest] at hsame
    rw [halike.rest']
    cases left with
    | nil => exact ⟨_, by rw [(List.cons.inj hsame).1]; rfl⟩
    | cons z left => exact ⟨_, by rw [(List.cons.inj hsame).1]; rfl⟩
  obtain ⟨d', hd', -⟩ := Cursor.passes_step? hy hnext
  exact occursIn_iff.mpr
    ⟨before, rest', d', hsplit', mem_results_append_iff.mpr ⟨e', he', Option.mem_toList.mpr hd'⟩⟩

theorem occursIn_stop_eq_false (hp : p.staysBefore x = true) (hx : x ≠ '\n') (front : Text)
    (n : Nat) : (p ++ stop).occursIn (front ++ x :: List.replicate n maskChar) = false := by
  by_contra hmatch
  obtain ⟨before, rest, d, hsplit, hd⟩ := occursIn_iff.mp (by simpa using hmatch)
  obtain ⟨e, he, hstop⟩ := mem_results_append_iff.mp hd
  obtain ⟨-, -, e', -, left, halike⟩ := exists_results_of_staysBefore hp hx hsplit he n
  have hrest := rest_of_mem_stop hstop
  rw [halike.rest] at hrest
  cases left with
  | nil => simp [hx] at hrest
  | cons y left => simp at hrest

/-- A pattern that ends with a character and the end of the text matches only texts that end so. -/
theorem getLast?_of_occursIn_stop {y : Char} (h : (p ++ char y ++ stop).occursIn t = true) :
    t.getLast? = some y ∨ t.getLast? = some '\n' := by
  obtain ⟨before, rest, d, rfl, hd⟩ := occursIn_iff.mp h
  obtain ⟨e, he, hstop⟩ := mem_results_append_iff.mp hd
  obtain ⟨e', he', hlast⟩ := mem_results_append_iff.mp he
  obtain ⟨z, hz, hpasses⟩ := passes_of_mem_one hlast
  obtain rfl : z = y := by simpa using hz
  obtain ⟨taken, htaken⟩ := passes_of_mem_results he'
  have hrest : rest = taken ++ ([z] ++ e.rest) := by rw [← hpasses.rest, ← htaken.rest]
  rw [hrest]
  rcases rest_of_mem_stop hstop with hend | hend
  · left
    simp [hend]
  · right
    simp [hend]

end Places

end Pattern

end LineLint
