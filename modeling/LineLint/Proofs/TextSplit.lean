import LineLint.Text
import Mathlib.Data.List.Basic
import Mathlib.Data.List.Induction

/-!
# Splitting and joining

Splitting at a separator leaves parts that are free of it, and joining such parts is undone by
splitting. A text is also the sequence of its closed parts, each with the separator behind it, and
of one last part. Whether its newlines are all of one kind shows at the ends of the closed parts.
-/

namespace LineLint

namespace Text

theorem splitOn_eq (separator : Char) (t : Text) :
    splitOn separator t = List.splitOn separator t := by
  induction t with
  | nil => simp [splitOn]
  | cons c rest ih =>
      rw [splitOn, ih, List.splitOn_cons_eq_if_modifyHead]
      obtain ⟨part, parts, h⟩ := List.exists_cons_of_ne_nil (List.splitOn_ne_nil separator rest)
      by_cases hc : c = separator <;> simp [hc, h]

theorem splitOn_ne_nil (separator : Char) (t : Text) : splitOn separator t ≠ [] := by
  rw [splitOn_eq]
  exact List.splitOn_ne_nil separator t

theorem splitOn_joinWith {separator : Char} {parts : List Text} (hne : parts ≠ [])
    (hfree : ∀ part ∈ parts, separator ∉ part) :
    splitOn separator (joinWith [separator] parts) = parts := by
  rw [splitOn_eq]
  exact List.splitOn_intercalate separator hfree hne

theorem not_mem_of_mem_splitOn {separator : Char} {t part : Text}
    (h : part ∈ splitOn separator t) : separator ∉ part := by
  induction t generalizing part with
  | nil =>
      rw [splitOn, List.mem_singleton] at h
      simp [h]
  | cons c rest ih =>
      rw [splitOn] at h
      split_ifs at h with hc
      · rcases List.mem_cons.mp h with rfl | h
        · simp
        · exact ih h
      · cases hs : splitOn separator rest with
        | nil => exact absurd hs (splitOn_ne_nil separator rest)
        | cons first others =>
            simp only [hs, List.mem_cons] at h ih
            rcases h with rfl | h
            · simp only [List.mem_cons, not_or]
              exact ⟨Ne.symm hc, ih (Or.inl rfl)⟩
            · exact ih (Or.inr h)

theorem splitOn_append_cons (separator : Char) (before after : Text) :
    splitOn separator (before ++ separator :: after) =
      splitOn separator before ++ splitOn separator after := by
  simp only [splitOn_eq]
  exact List.splitOn_append_cons_self before after

theorem joinWith_cons (separator first : Text) (rest : List Text) :
    joinWith separator (first :: rest) = first ++ rest.flatMap (separator ++ ·) := by
  induction rest generalizing first with
  | nil => simp [joinWith, List.intercalate]
  | cons part rest ih =>
      have hstep : joinWith separator (first :: part :: rest) =
          first ++ separator ++ joinWith separator (part :: rest) := by
        simp [joinWith, List.intercalate]
      rw [hstep, ih, List.flatMap_cons]
      simp only [List.append_assoc]

theorem joinWith_append_cons (separator : Text) (init : List Text) (part : Text)
    (rest : List Text) :
    joinWith separator (init ++ part :: rest) =
      init.flatMap (· ++ separator) ++ part ++ rest.flatMap (separator ++ ·) := by
  induction init with
  | nil => rw [List.nil_append, joinWith_cons, List.flatMap_nil, List.nil_append]
  | cons first init ih =>
      have hne : init ++ part :: rest ≠ [] := by simp
      obtain ⟨next, others, hothers⟩ := List.exists_cons_of_ne_nil hne
      rw [hothers, joinWith_cons] at ih
      rw [List.cons_append, hothers, joinWith_cons, List.flatMap_cons, List.flatMap_cons]
      simp only [List.append_assoc] at ih ⊢
      rw [ih]

theorem joinWith_snoc (separator : Text) (closed : List Text) (last : Text) :
    joinWith separator (closed ++ [last]) = closed.flatMap (· ++ separator) ++ last := by
  rw [joinWith_append_cons, List.flatMap_nil, List.append_nil]

theorem flatMap_append_of_splitOn {separator : Char} {t last : Text} {closed : List Text}
    (h : splitOn separator t = closed ++ [last]) :
    closed.flatMap (· ++ [separator]) ++ last = t := by
  rw [← joinWith_snoc, ← h, splitOn_eq]
  exact List.intercalate_splitOn separator

theorem splitOn_flatMap_append {separator : Char} {closed : List Text} {last : Text}
    (hclosed : ∀ part ∈ closed, separator ∉ part) (hlast : separator ∉ last) :
    splitOn separator (closed.flatMap (· ++ [separator]) ++ last) = closed ++ [last] := by
  rw [← joinWith_snoc]
  apply splitOn_joinWith (by simp)
  intro part hpart
  rcases List.mem_append.mp hpart with hpart | hpart
  · exact hclosed part hpart
  · rwa [List.mem_singleton.mp hpart]

theorem exists_splitOn_eq (separator : Char) (t : Text) :
    ∃ closed last, splitOn separator t = closed ++ [last] :=
  ⟨_, _, (List.dropLast_append_getLast (splitOn_ne_nil separator t)).symm⟩

end Text

open Text

/-- A text whose newlines all follow a carriage return, or none of them does, and that does not end
with a carriage return. -/
structure HasUniformNewlines (t : Text) : Prop where
  uniform : (∀ before after, t = before ++ '\n' :: after → before.getLast? = some '\r') ∨
    ∀ before after, t = before ++ '\n' :: after → before.getLast? ≠ some '\r'
  ending : t.getLast? ≠ some '\r'

namespace Text

theorem includes_iff {t part : Text} : includes t part = true ↔ part <:+: t := by
  unfold includes
  induction t with
  | nil =>
      by_cases h : part = [] <;> simp [position?, h]
  | cons c rest ih =>
      rw [position?]
      by_cases hstart : part.isPrefixOf (c :: rest) = true
      · have hp : part <+: c :: rest := List.isPrefixOf_iff_prefix.mp hstart
        simp [hstart, hp.isInfix]
      · have hp : ¬ part <+: c :: rest := fun h => hstart (List.isPrefixOf_iff_prefix.mpr h)
        rw [if_neg hstart, Option.isSome_map, ih, List.infix_cons_iff]
        simp [hp]

theorem includes_pair_iff {t : Text} {a b : Char} :
    includes t [a, b] = true ↔
      ∃ before after, t = before ++ b :: after ∧ before.getLast? = some a := by
  rw [includes_iff]
  constructor
  · rintro ⟨before, after, rfl⟩
    exact ⟨before ++ [a], after, by simp, by simp⟩
  · rintro ⟨before, after, rfl, hlast⟩
    obtain ⟨start, rfl⟩ := List.getLast?_eq_some_iff.mp hlast
    exact ⟨start, after, by simp⟩

/-- The end of a text is that of its last part, as long as another character than the separator is
looked for. -/
theorem getLast?_flatMap_append {separator c : Char} (hc : c ≠ separator) (closed : List Text)
    (last : Text) :
    (closed.flatMap (· ++ [separator]) ++ last).getLast? = some c ↔ last.getLast? = some c := by
  induction closed using List.reverseRecOn with
  | nil => simp
  | append_singleton closed part _ =>
      rw [List.flatMap_append, List.flatMap_singleton]
      cases last with
      | nil =>
          have hend : (closed.flatMap (· ++ [separator]) ++ (part ++ [separator]) ++ []).getLast? =
              some separator := by simp
          rw [hend]
          simp [hc.symm]
      | cons d last => simp [List.getLast?_append]

section Closed

variable {t last : Text} {closed : List Text} (h : splitOn '\n' t = closed ++ [last])
include h

theorem not_mem_of_mem_closed {part : Text} (hpart : part ∈ closed) : '\n' ∉ part := by
  apply not_mem_of_mem_splitOn (t := t)
  rw [h]
  exact List.mem_append_left _ hpart

theorem not_mem_last : '\n' ∉ last := by
  apply not_mem_of_mem_splitOn (t := t)
  rw [h]
  exact List.mem_append_right _ (List.mem_singleton.mpr rfl)

/-- What stands before a newline of a text ends as the closed part before that newline does. -/
theorem exists_mem_closed {before after : Text} (ht : t = before ++ '\n' :: after) :
    ∃ part ∈ closed, (before.getLast? = some '\r' ↔ part.getLast? = some '\r') := by
  obtain ⟨start, part, hpart⟩ := exists_splitOn_eq '\n' before
  obtain ⟨rest, final, hrest⟩ := exists_splitOn_eq '\n' after
  have hsplit : closed ++ [last] = (start ++ part :: rest) ++ [final] := by
    rw [← h, ht, splitOn_append_cons, hpart, hrest]
    simp
  have hclosed : closed = start ++ part :: rest := (List.append_inj' hsplit rfl).1
  refine ⟨part, by simp [hclosed], ?_⟩
  rw [← flatMap_append_of_splitOn hpart]
  exact getLast?_flatMap_append (by decide) start part

theorem exists_newline_of_mem_closed {part : Text} (hpart : part ∈ closed) :
    ∃ before after, t = before ++ '\n' :: after ∧
      (before.getLast? = some '\r' ↔ part.getLast? = some '\r') := by
  obtain ⟨start, rest, rfl⟩ := List.append_of_mem hpart
  refine ⟨start.flatMap (· ++ ['\n']) ++ part, rest.flatMap (· ++ ['\n']) ++ last, ?_, ?_⟩
  · rw [← flatMap_append_of_splitOn h]
    simp
  · exact getLast?_flatMap_append (by decide) start part

theorem hasUniformNewlines_iff :
    HasUniformNewlines t ↔
      ((∀ part ∈ closed, part.getLast? = some '\r') ∨
        ∀ part ∈ closed, part.getLast? ≠ some '\r') ∧ last.getLast? ≠ some '\r' := by
  have hend : t.getLast? = some '\r' ↔ last.getLast? = some '\r' := by
    rw [← flatMap_append_of_splitOn h]
    exact getLast?_flatMap_append (by decide) closed last
  have hall : (∀ before after, t = before ++ '\n' :: after → before.getLast? = some '\r') ↔
      ∀ part ∈ closed, part.getLast? = some '\r' := by
    constructor
    · intro hbefore part hpart
      obtain ⟨before, after, ht, hiff⟩ := exists_newline_of_mem_closed h hpart
      exact hiff.mp (hbefore before after ht)
    · intro hparts before after ht
      obtain ⟨part, hpart, hiff⟩ := exists_mem_closed h ht
      exact hiff.mpr (hparts part hpart)
  have hnone : (∀ before after, t = before ++ '\n' :: after → before.getLast? ≠ some '\r') ↔
      ∀ part ∈ closed, part.getLast? ≠ some '\r' := by
    constructor
    · intro hbefore part hpart hlast
      obtain ⟨before, after, ht, hiff⟩ := exists_newline_of_mem_closed h hpart
      exact hbefore before after ht (hiff.mpr hlast)
    · intro hparts before after ht hlast
      obtain ⟨part, hpart, hiff⟩ := exists_mem_closed h ht
      exact hparts part hpart (hiff.mp hlast)
  constructor
  · rintro ⟨huniform, hending⟩
    rw [hall, hnone] at huniform
    exact ⟨huniform, fun hlast => hending (hend.mpr hlast)⟩
  · rintro ⟨huniform, hlast⟩
    rw [← hall, ← hnone] at huniform
    exact ⟨huniform, fun hending => hlast (hend.mp hending)⟩

end Closed

end Text

end LineLint
