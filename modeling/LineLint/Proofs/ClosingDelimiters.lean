import LineLint.Proofs.LiteralSpans

/-!
# Closing delimiters

A literal closes with the first unescaped occurrence of its delimiter. Whether a character is escaped
is told by the backslashes right before it: it is if their number is odd. A backslash that is not
escaped itself escapes what follows it, so that no delimiter starts with it.
-/

namespace LineLint

namespace LiteralStyle

variable {delimiter t : Text} {c : Char} {n k : Nat}

section Backslashes

theorem trailingBackslashes_append (s t : Text) :
    trailingBackslashes (s ++ t) =
      if trailingBackslashes t = t.length then t.length + trailingBackslashes s
      else trailingBackslashes t := by
  have hreverse : trailingBackslashes (s ++ t) =
      if trailingBackslashes t = t.reverse.length then
        (t.reverse ++ s.reverse.takeWhile (· == '\\')).length
      else trailingBackslashes t := by
    rw [trailingBackslashes, List.reverse_append, List.takeWhile_append, apply_ite List.length]
    rfl
  rw [hreverse, List.length_append, List.length_reverse]
  rfl

theorem trailingBackslashes_cons_of_ne (hc : c ≠ '\\') (t : Text) :
    trailingBackslashes (c :: t) = trailingBackslashes t := by
  have hnone : trailingBackslashes [c] = 0 := by simp [trailingBackslashes, hc]
  rw [← List.singleton_append, trailingBackslashes_append, hnone]
  split_ifs with hall
  · exact hall.symm
  · rfl

/-- An escape leaves the backslashes behind it even or odd, as they are. -/
theorem trailingBackslashes_escape (c : Char) (t : Text) :
    trailingBackslashes ('\\' :: c :: t) % 2 = trailingBackslashes t % 2 := by
  rw [show '\\' :: c :: t = ['\\', c] ++ t from rfl, trailingBackslashes_append]
  split_ifs with hall
  · by_cases hc : c = '\\'
    · subst hc
      rw [show trailingBackslashes ['\\', '\\'] = 2 from rfl, ← hall]
      omega
    · have hnone : trailingBackslashes ['\\', c] = 0 := by
        simp [trailingBackslashes, hc]
      rw [hnone, ← hall]
      rfl
  · rfl

end Backslashes

/-- An unescaped occurrence of the delimiter behind `n` characters. -/
structure ClosesAt (delimiter t : Text) (n : Nat) : Prop where
  occurs : delimiter <+: t.drop n
  notEscaped : trailingBackslashes (t.take n) % 2 = 0
  notEscaping : t[n]? ≠ some '\\'

structure ClosesFirstAt (delimiter t : Text) (n : Nat) : Prop extends ClosesAt delimiter t n where
  first : ∀ m < n, ¬ClosesAt delimiter t m

theorem ClosesFirstAt.eq (hn : ClosesFirstAt delimiter t n) (hk : ClosesFirstAt delimiter t k) :
    n = k := by
  rcases Nat.lt_trichotomy n k with hlt | heq | hlt
  · exact absurd hn.toClosesAt (hk.first n hlt)
  · exact heq
  · exact absurd hk.toClosesAt (hn.first k hlt)

section Steps

theorem ClosesAt.lt_length (h : ClosesAt delimiter t n) (hdelimiter : delimiter ≠ []) :
    n < t.length := by
  have hlength := h.occurs.length_le
  have hpositive := List.length_pos_of_ne_nil hdelimiter
  rw [List.length_drop] at hlength
  omega

theorem closesAt_zero_iff (hc : c ≠ '\\') :
    ClosesAt delimiter (c :: t) 0 ↔ delimiter <+: c :: t :=
  ⟨fun h => h.occurs, fun h => ⟨h, rfl, by simpa using hc⟩⟩

theorem closesAt_succ_iff (hc : c ≠ '\\') :
    ClosesAt delimiter (c :: t) (n + 1) ↔ ClosesAt delimiter t n := by
  constructor
  · rintro ⟨hoccurs, hescaped, hescaping⟩
    rw [List.take_succ_cons, trailingBackslashes_cons_of_ne hc] at hescaped
    exact ⟨hoccurs, hescaped, hescaping⟩
  · rintro ⟨hoccurs, hescaped, hescaping⟩
    refine ⟨hoccurs, ?_, hescaping⟩
    rwa [List.take_succ_cons, trailingBackslashes_cons_of_ne hc]

theorem closesAt_escape_iff :
    ClosesAt delimiter ('\\' :: c :: t) (n + 2) ↔ ClosesAt delimiter t n := by
  constructor
  · rintro ⟨hoccurs, hescaped, hescaping⟩
    rw [List.take_succ_cons, List.take_succ_cons, trailingBackslashes_escape] at hescaped
    exact ⟨hoccurs, hescaped, hescaping⟩
  · rintro ⟨hoccurs, hescaped, hescaping⟩
    refine ⟨hoccurs, ?_, hescaping⟩
    rwa [List.take_succ_cons, List.take_succ_cons, trailingBackslashes_escape]

theorem not_closesAt_escape (hn : n < 2) : ¬ClosesAt delimiter ('\\' :: t) n := by
  rintro ⟨-, hescaped, hescaping⟩
  obtain rfl | rfl : n = 0 ∨ n = 1 := by omega
  · exact hescaping rfl
  · cases hescaped

/-- What stands behind a delimiter does not matter to it. -/
theorem ClosesAt.append_congr {more more' : Text} (h : ClosesAt delimiter (t ++ more) n)
    (hdelimiter : delimiter ≠ []) (hn : n + delimiter.length ≤ t.length) :
    ClosesAt delimiter (t ++ more') n := by
  have hpositive := List.length_pos_of_ne_nil hdelimiter
  obtain ⟨hoccurs, hescaped, hescaping⟩ := h
  rw [List.drop_append_of_le_length (by omega)] at hoccurs
  rw [List.take_append_of_le_length (by omega)] at hescaped
  rw [List.getElem?_append_left (by omega)] at hescaping
  refine ⟨?_, ?_, ?_⟩
  · rw [List.drop_append_of_le_length (by omega)]
    have hwithin : delimiter <+: t.drop n := by
      refine List.prefix_of_prefix_length_le hoccurs (List.prefix_append _ _) ?_
      rw [List.length_drop]
      omega
    exact hwithin.trans (List.prefix_append _ _)
  · rwa [List.take_append_of_le_length (by omega)]
  · rwa [List.getElem?_append_left (by omega)]

theorem ClosesFirstAt.succ (h : ClosesFirstAt delimiter t n) (hc : c ≠ '\\')
    (hlater : ¬delimiter <+: c :: t) : ClosesFirstAt delimiter (c :: t) (n + 1) := by
  refine ⟨(closesAt_succ_iff hc).mpr h.toClosesAt, fun m hm => ?_⟩
  cases m with
  | zero => rwa [closesAt_zero_iff hc]
  | succ m =>
      rw [closesAt_succ_iff hc]
      exact h.first m (by omega)

theorem ClosesFirstAt.escape (h : ClosesFirstAt delimiter t n) :
    ClosesFirstAt delimiter ('\\' :: c :: t) (n + 2) := by
  refine ⟨closesAt_escape_iff.mpr h.toClosesAt, fun m hm => ?_⟩
  by_cases hlt : m < 2
  · exact not_closesAt_escape hlt
  · obtain ⟨m, rfl⟩ := Nat.exists_eq_add_of_le' (Nat.le_of_not_lt hlt)
    rw [closesAt_escape_iff]
    exact h.first m (by omega)

end Steps

section Search

/-- The search for the end of a literal finds the first unescaped occurrence of the delimiter. -/
theorem closesFirstAt_of_closeLength? (h : closeLength? delimiter t = some k) :
    ∃ n, k = n + delimiter.length ∧ ClosesFirstAt delimiter t n := by
  fun_induction closeLength? delimiter t generalizing k with
  | case1 => cases h
  | case2 => cases h
  | case3 c rest ih =>
      obtain ⟨k, hk, rfl⟩ := Option.map_eq_some_iff.mp h
      obtain ⟨n, rfl, hfirst⟩ := ih hk
      exact ⟨n + 2, by omega, hfirst.escape⟩
  | case4 c rest hlast hescape hcloses =>
      obtain rfl := Option.some.inj h
      have hc := ne_backslash hlast hescape
      refine ⟨0, (Nat.zero_add _).symm, (closesAt_zero_iff hc).mpr ?_, fun m hm => ?_⟩
      · exact List.isPrefixOf_iff_prefix.mp hcloses
      · exact absurd hm (Nat.not_lt_zero m)
  | case5 c rest hlast hescape hcloses ih =>
      obtain ⟨k, hk, rfl⟩ := Option.map_eq_some_iff.mp h
      obtain ⟨n, rfl, hfirst⟩ := ih hk
      refine ⟨n + 1, by omega, hfirst.succ (ne_backslash hlast hescape) ?_⟩
      rwa [← List.isPrefixOf_iff_prefix]

theorem not_closesAt_of_closeLength? (hdelimiter : delimiter ≠ [])
    (h : closeLength? delimiter t = none) (n : Nat) : ¬ClosesAt delimiter t n := by
  fun_induction closeLength? delimiter t generalizing n with
  | case1 => exact fun hcloses => absurd (hcloses.lt_length hdelimiter) (Nat.not_lt_zero n)
  | case2 =>
      intro hcloses
      have hlt : n < 1 := hcloses.lt_length hdelimiter
      exact not_closesAt_escape (by omega) hcloses
  | case3 c rest ih =>
      by_cases hlt : n < 2
      · exact not_closesAt_escape hlt
      · obtain ⟨n, rfl⟩ := Nat.exists_eq_add_of_le' (Nat.le_of_not_lt hlt)
        rw [closesAt_escape_iff]
        exact ih (by simpa using h) n
  | case4 => cases h
  | case5 c rest hlast hescape hcloses ih =>
      have hc := ne_backslash hlast hescape
      cases n with
      | zero => rwa [closesAt_zero_iff hc, ← List.isPrefixOf_iff_prefix]
      | succ n =>
          rw [closesAt_succ_iff hc]
          exact ih (by simpa using h) n

theorem closeLength?_eq_some_iff (hdelimiter : delimiter ≠ []) :
    closeLength? delimiter t = some k ↔
      ∃ n, k = n + delimiter.length ∧ ClosesFirstAt delimiter t n := by
  refine ⟨closesFirstAt_of_closeLength?, ?_⟩
  rintro ⟨n, rfl, hfirst⟩
  cases hlength : closeLength? delimiter t with
  | none => exact absurd hfirst.toClosesAt (not_closesAt_of_closeLength? hdelimiter hlength n)
  | some k =>
      obtain ⟨m, rfl, hother⟩ := closesFirstAt_of_closeLength? hlength
      rw [hother.eq hfirst]

end Search

end LiteralStyle

end LineLint
