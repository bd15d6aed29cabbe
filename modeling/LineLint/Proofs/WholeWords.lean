import LineLint.Proofs.PatternPlaces
import LineLint.Proofs.ScannedText

/-!
# Whole words

The search for a whole word finds it where it stands with no part of a name on either side. It goes
on behind each word that it finds, and through what is not the word, so that it can be told part by
part, as the replacement of what it finds can.
-/

namespace LineLint

namespace Pattern

variable {p : Pattern} {position resume : Nat} {previous : Option Char} {t skipped rest : Text}

section Searches

theorem results_textPattern (t : Text) (c : Cursor) :
    (textPattern t).results c =
      if t.isPrefixOf c.rest then
        [⟨c.position + t.length, t.getLast?.or c.previous, c.rest.drop t.length, c.groups⟩]
      else [] := by
  induction t generalizing c with
  | nil =>
      rw [List.isPrefixOf_nil_left, if_pos rfl]
      rfl
  | cons x t ih =>
      change (c.step? (· == x)).toList.flatMap (textPattern t).results = _
      cases hrest : c.rest with
      | nil => simp [Cursor.step?, hrest]
      | cons y rest =>
          rw [Cursor.step?, hrest]
          by_cases hy : y = x
          · subst hy
            simp only [beq_self_eq_true, if_true, Option.toList_some, List.flatMap_singleton, ih,
              List.isPrefixOf_cons_cons, Bool.true_and, List.length_cons, List.drop_succ_cons,
              Cursor.previous_cons, Nat.add_assoc, Nat.add_comm 1]
          · simp [hy, Ne.symm hy]

/-- The search goes through a text that an earlier match takes up. -/
theorem findFrom_skip (p : Pattern) (hresume : position + skipped.length ≤ resume) :
    p.findFrom position resume previous (skipped ++ rest) =
      p.findFrom (position + skipped.length) resume (skipped.getLast?.or previous) rest := by
  induction skipped generalizing position previous with
  | nil => rfl
  | cons x skipped ih =>
      rw [List.length_cons] at hresume ⊢
      rw [List.cons_append, findFrom, if_pos (by omega), ih (by omega), Cursor.previous_cons,
        Nat.add_assoc, Nat.add_comm 1]

theorem findFrom_of_resume_le (p : Pattern) (hresume : resume ≤ position) :
    p.findFrom position resume previous t = p.findFrom position position previous t := by
  cases t with
  | nil => rw [findFrom, findFrom, if_neg (by omega), if_neg (by omega)]
  | cons x t => rw [findFrom, findFrom, if_neg (by omega), if_neg (by omega)]

theorem findFrom_of_none
    (hnone : ∀ front back, skipped = front ++ back → back ≠ [] →
      p.matchesAt ⟨position + front.length, front.getLast?.or previous, back ++ rest, []⟩ = []) :
    p.findFrom position position previous (skipped ++ rest) =
      p.findFrom (position + skipped.length) (position + skipped.length)
        (skipped.getLast?.or previous) rest := by
  induction skipped generalizing position previous with
  | nil => rfl
  | cons x skipped ih =>
      have hfirst := hnone [] (x :: skipped) rfl (List.cons_ne_nil _ _)
      have hlength : position + (x :: skipped).length = position + 1 + skipped.length := by
        rw [List.length_cons]
        omega
      rw [List.cons_append, findFrom, if_neg (Nat.lt_irrefl _)]
      change p.matchesAt ⟨position, previous, x :: (skipped ++ rest), []⟩ = [] at hfirst
      rw [hfirst, List.nil_append, List.getLast?_nil, Option.map_none, Option.getD_none,
        findFrom_of_resume_le p (Nat.le_succ position), Cursor.previous_cons, hlength]
      apply ih
      intro front back hsplit hne
      have hlater := hnone (x :: front) back (by rw [hsplit]; rfl) hne
      rwa [List.length_cons, Cursor.previous_cons, ← Nat.add_assoc, Nat.add_right_comm] at hlater

theorem le_start_of_mem_findFrom {m : Match} (hm : m ∈ p.findFrom position resume previous t) :
    position ≤ m.start := by
  obtain ⟨before, rest, d, -, -, rfl⟩ := exists_results_of_mem_findFrom hm
  exact Nat.le_add_right _ _

end Searches

end Pattern

namespace LiteralStyle

variable {word new t rest line : Text} {previous : Option Char} {position : Nat}

section Words

def IsName (word : Text) : Prop := word ≠ [] ∧ ∀ c ∈ word, isNamePart c = true

structure Stands (word : Text) (previous : Option Char) (t : Text) : Prop where
  before : ∀ c ∈ previous, isNamePart c = false
  occurs : word <+: t
  behind : ∀ c ∈ (t.drop word.length).head?, isNamePart c = false

theorem any_eq_false_iff {o : Option Char} :
    o.any isNamePart = false ↔ ∀ c ∈ o, isNamePart c = false := by
  cases o <;> simp

open Classical in
theorem results_wholeWord (word : Text) (c : Cursor) :
    (wholeWord word).results c =
      if Stands word c.previous c.rest then
        [⟨c.position + word.length, word.getLast?.or c.previous, c.rest.drop word.length, c.groups⟩]
      else [] := by
  have hstands : Stands word c.previous c.rest ↔ (c.previous.any isNamePart = false ∧
      word.isPrefixOf c.rest = true ∧ (c.rest.drop word.length).head?.any isNamePart = false) := by
    rw [any_eq_false_iff, any_eq_false_iff, List.isPrefixOf_iff_prefix]
    exact ⟨fun h => ⟨h.before, h.occurs, h.behind⟩, fun h => ⟨h.1, h.2.1, h.2.2⟩⟩
  change (((Pattern.edge (.notAfter isNamePart)).results c).flatMap
    (Pattern.textPattern word).results).flatMap
      (Pattern.edge (.notBefore isNamePart)).results = _
  simp only [Pattern.results, Edge.holds, hstands]
  by_cases hbefore : c.previous.any isNamePart = false
  · simp only [hbefore, Bool.not_false, if_true, List.flatMap_singleton, true_and,
      Pattern.results_textPattern]
    by_cases hoccurs : word.isPrefixOf c.rest = true
    · simp [hoccurs]
    · simp [hoccurs]
  · simp [hbefore]

theorem matchesAt_of_stands (hword : word ≠ []) (h : Stands word previous t) :
    (wholeWord word).matchesAt ⟨position, previous, t, []⟩ =
      [⟨position, position + word.length, []⟩] := by
  have hpositive := List.length_pos_of_ne_nil hword
  have hfirst : (wholeWord word).first? ⟨position, previous, t, []⟩ =
      some ⟨position, position + word.length, []⟩ := by
    rw [Pattern.first?_eq_head?, results_wholeWord, if_pos h]
    rfl
  rw [Pattern.matchesAt, hfirst]
  simp [hpositive]

theorem matchesAt_of_not_stands (h : ¬Stands word previous t) :
    (wholeWord word).matchesAt ⟨position, previous, t, []⟩ = [] := by
  rw [Pattern.matchesAt, Pattern.first?_eq_head?, results_wholeWord, if_neg h]
  rfl

theorem Stands.eq_of_isName {name : Text} (h : Stands word previous (name ++ rest))
    (hword : IsName word) (hname : IsName name)
    (hrest : ∀ c ∈ rest.head?, isNamePart c = false) : word = name := by
  have hbehind := h.behind
  rcases Text.prefix_append_cases h.occurs with ⟨more, rfl⟩ | ⟨more, rfl, hmore⟩
  · cases more with
    | nil => exact (List.append_nil word).symm
    | cons c more =>
        rw [List.append_assoc, List.drop_left] at hbehind
        have hc := hbehind c rfl
        rw [hname.2 c (by simp)] at hc
        cases hc
  · cases more with
    | nil => exact List.append_nil name
    | cons c more =>
        obtain ⟨others, rfl⟩ := hmore
        have hc := hrest c rfl
        rw [hword.2 c (by simp)] at hc
        cases hc

theorem findFrom_of_stands (hword : word ≠ []) (h : Stands word previous (word ++ rest)) :
    (wholeWord word).findFrom position position previous (word ++ rest) =
      ⟨position, position + word.length, []⟩ ::
        (wholeWord word).findFrom (position + word.length) (position + word.length)
          (word.getLast?.or previous) rest := by
  have hfound : (wholeWord word).matchesAt ⟨position, previous, word ++ rest, []⟩ =
      [⟨position, position + word.length, []⟩] := matchesAt_of_stands hword h
  cases word with
  | nil => exact absurd rfl hword
  | cons c word =>
      have hlength : position + 1 + word.length = position + (c :: word).length := by
        rw [List.length_cons]
        omega
      rw [List.cons_append] at hfound ⊢
      rw [Pattern.findFrom, if_neg (Nat.lt_irrefl _), hfound, Cursor.previous_cons, ← hlength]
      exact congrArg _ (Pattern.findFrom_skip _ (Nat.le_refl _))

theorem replaceMatches_of_le {new : Match → Text} {start : Nat} {ms : List Match}
    (hstart : position ≤ start) (hms : ∀ m ∈ ms, start ≤ m.start) :
    replaceMatches line new position ms =
      Text.slice line position start ++ replaceMatches line new start ms := by
  have hsplit {u : Text} {stop : Nat} (hstop : start ≤ stop) :
      u.drop position = Text.slice u position start ++ u.drop start := by
    rw [Text.slice]
    conv_lhs => rw [← List.take_append_drop start u]
    by_cases hlength : position ≤ (u.take start).length
    · rw [List.drop_append_of_le_length hlength]
    · have hshort : u.length < start := by
        by_contra hlong
        rw [List.length_take_of_le (Nat.le_of_not_lt hlong)] at hlength
        exact hlength hstart
      rw [List.drop_eq_nil_of_le (Nat.le_of_lt hshort), List.append_nil, List.append_nil]
  cases ms with
  | nil => exact hsplit (Nat.le_refl start)
  | cons m ms =>
      have hm : start ≤ m.start := hms m List.mem_cons_self
      have htake : (line.take m.start).take start = line.take start := by
        rw [List.take_take, Nat.min_eq_left hm]
      have hslice := hsplit (u := line.take m.start) hm
      rw [Text.slice, htake] at hslice
      rw [replaceMatches, replaceMatches]
      simp only [Text.slice, hslice, List.append_assoc]

end Words

end LiteralStyle

end LineLint
