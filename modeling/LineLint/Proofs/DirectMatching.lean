import LineLint.Proofs.WholeWords
import Mathlib.Data.List.TakeWhile

/-!
# Matching without a way back

A greedy repetition goes back to fewer rounds where what follows it does not match behind the most.
Where going back never helps, a pattern is matched by stepping ahead over one text: the longest run
of a class, or a quoted part up to the next quote.
-/

namespace LineLint

namespace Cursor

def ahead (c : Cursor) (t : Text) : Cursor :=
  ⟨c.position + t.length, t.getLast?.or c.previous, c.rest.drop t.length, c.groups⟩

def grouped (c : Cursor) (name : String) (t : Text) : Cursor := (c.ahead t).record name c

variable {c : Cursor} {t : Text}

@[simp] theorem ahead_nil (c : Cursor) : c.ahead [] = c := rfl

@[simp] theorem ahead_ahead (c : Cursor) (s t : Text) : (c.ahead s).ahead t = c.ahead (s ++ t) := by
  simp only [ahead, List.length_append, List.drop_drop, List.getLast?_append, Option.or_assoc,
    Nat.add_assoc]

@[simp] theorem position_ahead (c : Cursor) (t : Text) :
    (c.ahead t).position = c.position + t.length :=
  rfl

@[simp] theorem rest_ahead (c : Cursor) (t : Text) : (c.ahead t).rest = c.rest.drop t.length := rfl

@[simp] theorem groups_ahead (c : Cursor) (t : Text) : (c.ahead t).groups = c.groups := rfl

theorem rest_ahead_of_eq {rest : Text} (hrest : c.rest = t ++ rest) : (c.ahead t).rest = rest := by
  rw [rest_ahead, hrest, List.drop_left]

@[simp] theorem position_grouped (c : Cursor) (name : String) (t : Text) :
    (c.grouped name t).position = c.position + t.length :=
  rfl

@[simp] theorem rest_grouped (c : Cursor) (name : String) (t : Text) :
    (c.grouped name t).rest = c.rest.drop t.length :=
  rfl

@[simp] theorem groups_grouped (c : Cursor) (name : String) (t : Text) :
    (c.grouped name t).groups = (name, ⟨c.position, c.rest, t.length⟩) :: c.groups := by
  simp [grouped, record, ahead]

end Cursor

namespace Pattern

variable {β : Type} {c : Cursor} {next : Cursor → Option β} {x : Char} {t rest : Text}

theorem firstWith_append (p q : Pattern) (c : Cursor) (next : Cursor → Option β) :
    (p ++ q).firstWith c next = p.firstWith c fun d => q.firstWith d next :=
  rfl

theorem firstWith_group (name : String) (p : Pattern) (c : Cursor) (next : Cursor → Option β) :
    (group name p).firstWith c next = p.firstWith c fun d => next (d.record name c) :=
  rfl

theorem firstWith_opt (p : Pattern) (c : Cursor) (next : Cursor → Option β) :
    (opt p).firstWith c next = (p.firstWith c next).or (next c) := by
  rw [opt, firstWith, firstWith]
  cases p.firstWith c next <;> rfl

theorem firstWith_or (p q : Pattern) (c : Cursor) (next : Cursor → Option β) :
    (p ||| q).firstWith c next = (p.firstWith c next).or (q.firstWith c next) := by
  change (alt p q).firstWith c next = _
  rw [firstWith]
  cases p.firstWith c next <;> rfl

theorem repeatedWith_lazy_succ (step : Cursor → (Cursor → Option β) → Option β)
    (next : Cursor → Option β) (rounds : Nat) (c : Cursor) :
    repeatedWith false step next (rounds + 1) c = (next c).or (step c fun d =>
      if c.position < d.position then repeatedWith false step next rounds d else none) := by
  rw [repeatedWith]
  cases next c <;> rfl

theorem firstWith_one_nil (q : Char → Bool) (hrest : c.rest = []) :
    (one q).firstWith c next = none := by
  rw [firstWith, Cursor.step?, hrest]
  rfl

theorem firstWith_one_cons (q : Char → Bool) (hrest : c.rest = x :: rest) :
    (one q).firstWith c next = if q x then next (c.ahead [x]) else none := by
  rw [firstWith, Cursor.step?, hrest]
  have hstep : c.ahead [x] = ⟨c.position + 1, some x, rest, c.groups⟩ := by
    simp [Cursor.ahead, hrest]
  rw [hstep]
  by_cases hx : q x = true
  · simp [hx]
  · simp [hx]

theorem firstWith_char_cons (y : Char) (hrest : c.rest = x :: rest) :
    (char y).firstWith c next = if x = y then next (c.ahead [x]) else none := by
  rw [char, firstWith_one_cons _ hrest]
  simp only [beq_iff_eq]

theorem firstWith_char_nil (y : Char) (hrest : c.rest = []) : (char y).firstWith c next = none :=
  firstWith_one_nil _ hrest

theorem firstWith_char_of_ne (y : Char) (h : c.rest.head? ≠ some y) :
    (char y).firstWith c next = none := by
  cases hrest : c.rest with
  | nil => exact firstWith_char_nil _ hrest
  | cons x rest =>
      rw [hrest] at h
      rw [firstWith_char_cons _ hrest, if_neg fun hx => h (congrArg some hx)]

/-- A run of a class is taken up as a whole where a part of it leads to nothing more. -/
theorem firstWith_star_one {q : Char → Bool}
    (hback : ∀ t, t <+: c.rest.takeWhile q → next (c.ahead (c.rest.takeWhile q)) = none →
      next (c.ahead t) = none) :
    (star (one q)).firstWith c next = next (c.ahead (c.rest.takeWhile q)) := by
  suffices hrounds : ∀ rounds, c.rest.length ≤ rounds →
      repeatedWith true (fun d more => (one q).firstWith d more) next rounds c =
        next (c.ahead (c.rest.takeWhile q)) from hrounds _ (Nat.le_refl _)
  induction hrest : c.rest generalizing c with
  | nil =>
      intro rounds _
      cases rounds with
      | zero => rfl
      | succ rounds =>
          simp only [repeatedWith, firstWith_one_nil q hrest, if_true]
          rfl
  | cons x rest ih =>
      intro rounds hlength
      obtain ⟨rounds, rfl⟩ : ∃ k, rounds = k + 1 := ⟨rounds - 1, by simp at hlength; omega⟩
      rw [hrest] at hback
      simp only [repeatedWith, firstWith_one_cons q hrest, if_true]
      by_cases hx : q x = true
      · rw [List.takeWhile_cons_of_pos hx] at hback ⊢
        have hrest' : (c.ahead [x]).rest = rest := Cursor.rest_ahead_of_eq hrest
        have hlater : repeatedWith true (fun d more => (one q).firstWith d more) next rounds
            (c.ahead [x]) = next (c.ahead (x :: rest.takeWhile q)) := by
          refine (ih ?_ hrest' rounds (by simpa using hlength)).trans
            (by rw [Cursor.ahead_ahead]; rfl)
          intro t ht hnone
          rw [hrest', Cursor.ahead_ahead] at hnone
          rw [Cursor.ahead_ahead]
          exact hback (x :: t) (List.cons_prefix_cons.mpr ⟨rfl, hrest' ▸ ht⟩) hnone
        have hproper : c.position < (c.ahead [x]).position := Nat.lt_succ_self _
        rw [if_pos hx, if_pos hproper, hlater]
        cases hfound : next (c.ahead (x :: rest.takeWhile q)) with
        | none => exact hback [] List.nil_prefix hfound
        | some found => rfl
      · rw [List.takeWhile_cons_of_neg hx, if_neg hx]
        rfl

/-- A run that starts with a character of a smaller class. -/
theorem firstWith_run {p q : Char → Bool} (hpq : ∀ x, p x = true → q x = true)
    (hback : ∀ t, t <+: c.rest.takeWhile q → next (c.ahead (c.rest.takeWhile q)) = none →
      next (c.ahead t) = none) :
    (one p ++ star (one q)).firstWith c next =
      if c.rest.head?.any p then next (c.ahead (c.rest.takeWhile q)) else none := by
  rw [firstWith_append]
  cases hrest : c.rest with
  | nil => exact firstWith_one_nil p hrest
  | cons x rest =>
      rw [hrest] at hback
      rw [firstWith_one_cons p hrest, List.head?_cons, Option.any_some]
      by_cases hx : p x = true
      · rw [List.takeWhile_cons_of_pos (hpq x hx)] at hback ⊢
        have hrest' : (c.ahead [x]).rest = rest := Cursor.rest_ahead_of_eq hrest
        rw [if_pos hx, if_pos hx, firstWith_star_one, Cursor.ahead_ahead, hrest']
        · rfl
        · intro t ht hnone
          rw [hrest', Cursor.ahead_ahead] at hnone
          rw [Cursor.ahead_ahead]
          exact hback (x :: t) (List.cons_prefix_cons.mpr ⟨rfl, hrest' ▸ ht⟩) hnone
      · rw [if_neg hx, if_neg hx]

theorem findFrom_of_matchesAt {p : Pattern} {position : Nat} {previous : Option Char} {m : Match}
    (h : p.matchesAt ⟨position, previous, t ++ rest, []⟩ = [m]) (ht : t ≠ [])
    (hstop : m.stop = position + t.length) :
    p.findFrom position position previous (t ++ rest) =
      m :: p.findFrom m.stop m.stop (t.getLast?.or previous) rest := by
  obtain ⟨x, t, rfl⟩ := List.exists_cons_of_ne_nil ht
  have hlength : m.stop = position + 1 + t.length := by
    rw [hstop, List.length_cons]
    omega
  rw [List.cons_append] at h ⊢
  rw [findFrom, if_neg (Nat.lt_irrefl _), h, Cursor.previous_cons, hlength]
  simp only [List.getLast?_singleton, Option.map_some, Option.getD_some, List.singleton_append,
    hlength]
  rw [findFrom_skip p (Nat.le_refl _)]

def quotedBy (quote : Char) (q : Char → Bool) : Pattern :=
  char quote ++ star (one q) ++ char quote

section Quoted

variable {quote : Char} {q : Char → Bool}

theorem firstWith_quotedBy (hq : ∀ x, q x = true ↔ x ≠ quote) (hrest : c.rest = quote :: rest) :
    (quotedBy quote q).firstWith c next =
      (char quote).firstWith (c.ahead (quote :: rest.takeWhile q)) next := by
  have hrest' : (c.ahead [quote]).rest = rest := Cursor.rest_ahead_of_eq hrest
  rw [quotedBy, firstWith_append, firstWith_append, firstWith_char_cons _ hrest, if_pos rfl,
    firstWith_star_one, hrest', Cursor.ahead_ahead]
  · rfl
  · intro t ht hnone
    rw [hrest'] at ht hnone
    obtain ⟨more, hmore⟩ := ht
    cases more with
    | nil =>
        rw [List.append_nil] at hmore
        rwa [hmore]
    | cons y more =>
        -- the run goes on behind `t`, so no quote stands there
        have hy : q y = true := List.mem_takeWhile_imp (l := rest) (hmore ▸ by simp)
        have hbehind : ((c.ahead [quote]).ahead t).rest =
            y :: (more ++ rest.dropWhile q) := by
          apply Cursor.rest_ahead_of_eq
          rw [hrest', ← List.cons_append, ← List.append_assoc, hmore,
            List.takeWhile_append_dropWhile]
        rw [firstWith_char_cons _ hbehind, if_neg ((hq y).mp hy)]

theorem firstWith_quotedBy_closed (hq : ∀ x, q x = true ↔ x ≠ quote) (ht : quote ∉ t)
    (hrest : c.rest = quote :: (t ++ quote :: rest)) :
    (quotedBy quote q).firstWith c next = next (c.ahead (quote :: (t ++ [quote]))) := by
  have hrun : (t ++ quote :: rest).takeWhile q = t := by
    rw [List.takeWhile_append_of_pos fun x hx => (hq x).mpr fun h => ht (h ▸ hx),
      List.takeWhile_cons_of_neg fun h => (hq quote).mp h rfl, List.append_nil]
  have hbehind : (c.ahead (quote :: t)).rest = quote :: rest := Cursor.rest_ahead_of_eq hrest
  rw [firstWith_quotedBy hq hrest, hrun, firstWith_char_cons _ hbehind, if_pos rfl,
    Cursor.ahead_ahead]
  rfl

theorem firstWith_quotedBy_open (hq : ∀ x, q x = true ↔ x ≠ quote) (ht : quote ∉ t)
    (hrest : c.rest = quote :: t) : (quotedBy quote q).firstWith c next = none := by
  have hrun : t.takeWhile q = t :=
    List.takeWhile_eq_self_iff.mpr fun x hx => (hq x).mpr fun h => ht (h ▸ hx)
  rw [firstWith_quotedBy hq hrest, hrun, firstWith_char_nil]
  simp [hrest]

theorem firstWith_quotedBy_of_ne (q : Char → Bool) (h : c.rest.head? ≠ some quote) :
    (quotedBy quote q).firstWith c next = none := by
  rw [quotedBy, firstWith_append, firstWith_append, firstWith_char_of_ne _ h]

end Quoted

end Pattern

end LineLint
