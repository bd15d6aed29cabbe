import LineLint.EditDistance
import Mathlib.Order.Lattice.Nat
import Mathlib.Order.Bounds.Basic

/-!
# Optimal edits

The edit distance of two texts is the least number of edits that turn one into the other, where no
character is edited twice. Edits can be read from either end of the texts, so that the table, which
goes by the parts that the texts start with, holds the same minimum as the recursion over the parts
that they end with.
-/

namespace LineLint

namespace EditDistance

/-- A text is turned into another one by so many edits, none of which touches a character that
another one has touched. -/
inductive Edits : Text → Text → Nat → Prop
  | nil : Edits [] [] 0
  | keep {a b : Text} {n : Nat} (c : Char) (h : Edits a b n) : Edits (c :: a) (c :: b) n
  | insert {a b : Text} {n : Nat} (c : Char) (h : Edits a b n) : Edits a (c :: b) (n + 1)
  | delete {a b : Text} {n : Nat} (c : Char) (h : Edits a b n) : Edits (c :: a) b (n + 1)
  | substitute {a b : Text} {n : Nat} (x y : Char) (h : Edits a b n) :
      Edits (x :: a) (y :: b) (n + 1)
  | swap {a b : Text} {n : Nat} (x y : Char) (h : Edits a b n) :
      Edits (x :: y :: a) (y :: x :: b) (n + 1)

/-- The least number of edits without a swap in front, from what is needed behind a deletion, behind
an insertion, and behind both characters. -/
def unswapped (x y : Char) (deleting inserting passing : Nat) : Nat :=
  min (min (deleting + 1) (inserting + 1)) (passing + if x == y then 0 else 1)

def leastEdits : Text → Text → Nat
  | [], b => b.length
  | x :: a, [] => (x :: a).length
  | x :: a, y :: b =>
      let plain := unswapped x y (leastEdits a (y :: b)) (leastEdits (x :: a) b) (leastEdits a b)
      match a, b with
      | x' :: a', y' :: b' =>
          if x == y' && x' == y then min plain (leastEdits a' b' + 1) else plain
      | _, _ => plain
termination_by a b => a.length + b.length

variable {a b a' b' : Text} {n m : Nat}

section Edits

theorem Edits.of_eq {k : Nat} (h : Edits a b n) (hk : n = k) : Edits a b k := hk ▸ h

theorem Edits.refl (a : Text) : Edits a a 0 := by
  induction a with
  | nil => exact .nil
  | cons c a ih => exact ih.keep c

theorem Edits.symm (h : Edits a b n) : Edits b a n := by
  induction h with
  | nil => exact .nil
  | keep c _ ih => exact ih.keep c
  | insert c _ ih => exact ih.delete c
  | delete c _ ih => exact ih.insert c
  | substitute x y _ ih => exact ih.substitute y x
  | swap x y _ ih => exact ih.swap y x

theorem Edits.append (h : Edits a b n) (h' : Edits a' b' m) :
    Edits (a ++ a') (b ++ b') (n + m) := by
  induction h with
  | nil => exact h'.of_eq (Nat.zero_add m).symm
  | keep c _ ih => exact ih.keep c
  | insert c _ ih => exact (ih.insert c).of_eq (by omega)
  | delete c _ ih => exact (ih.delete c).of_eq (by omega)
  | substitute x y _ ih => exact (ih.substitute x y).of_eq (by omega)
  | swap x y _ ih => exact (ih.swap x y).of_eq (by omega)

theorem Edits.reverse (h : Edits a b n) : Edits a.reverse b.reverse n := by
  induction h with
  | nil => exact .nil
  | keep c _ ih =>
      rw [List.reverse_cons, List.reverse_cons]
      exact ih.append (.keep c .nil)
  | insert c _ ih =>
      have hlast := ih.append (.insert c .nil)
      rwa [List.append_nil, ← List.reverse_cons] at hlast
  | delete c _ ih =>
      have hlast := ih.append (.delete c .nil)
      rwa [List.append_nil, ← List.reverse_cons] at hlast
  | substitute x y _ ih =>
      rw [List.reverse_cons, List.reverse_cons]
      exact ih.append (.substitute x y .nil)
  | swap x y _ ih =>
      simp only [List.reverse_cons, List.append_assoc]
      exact ih.append (.swap y x .nil)

theorem edits_reverse_iff : Edits a.reverse b.reverse n ↔ Edits a b n := by
  constructor
  · intro h
    have hback := h.reverse
    rwa [List.reverse_reverse, List.reverse_reverse] at hback
  · exact Edits.reverse

theorem Edits.eq_of_zero (h : Edits a b 0) : a = b := by
  generalize hn : 0 = n at h
  induction h with
  | nil => rfl
  | keep c _ ih => rw [ih hn]
  | insert => cases hn
  | delete => cases hn
  | substitute => cases hn
  | swap => cases hn

theorem Edits.length_le (h : Edits a b n) : a.length ≤ b.length + n := by
  induction h with
  | nil => exact Nat.le_refl 0
  | keep c _ ih => simp only [List.length_cons]; omega
  | insert c _ ih => simp only [List.length_cons]; omega
  | delete c _ ih => simp only [List.length_cons]; omega
  | substitute x y _ ih => simp only [List.length_cons]; omega
  | swap x y _ ih => simp only [List.length_cons]; omega

theorem edits_insertAll (b : Text) : Edits [] b b.length := by
  induction b with
  | nil => exact .nil
  | cons c b ih => exact ih.insert c

/-- No more edits are needed than the longer text has characters: all are substituted, and what is
over is inserted or deleted. -/
theorem edits_max_length (a b : Text) : Edits a b (max a.length b.length) := by
  induction a generalizing b with
  | nil =>
      rw [List.length_nil, Nat.zero_max]
      exact edits_insertAll b
  | cons x a ih =>
      cases b with
      | nil =>
          rw [List.length_nil, Nat.max_zero]
          exact (edits_insertAll (x :: a)).symm
      | cons y b =>
          rw [List.length_cons, List.length_cons, Nat.succ_max_succ]
          exact (ih b).substitute x y

end Edits

section Least

@[simp] theorem leastEdits_nil_left (b : Text) : leastEdits [] b = b.length := by
  rw [leastEdits]

@[simp] theorem leastEdits_nil_right (a : Text) : leastEdits a [] = a.length := by
  cases a <;> rw [leastEdits]

/-- No swap is looked for where one of the texts has no second character. -/
theorem leastEdits_cons_cons (x y : Char) (a b : Text) (h : a = [] ∨ b = []) :
    leastEdits (x :: a) (y :: b) =
      unswapped x y (leastEdits a (y :: b)) (leastEdits (x :: a) b) (leastEdits a b) := by
  rw [leastEdits]
  rintro x' a' y' b' rfl rfl
  simp at h

theorem leastEdits_cons_cons_le (x y : Char) (a b : Text) :
    leastEdits (x :: a) (y :: b) ≤
      unswapped x y (leastEdits a (y :: b)) (leastEdits (x :: a) b) (leastEdits a b) := by
  cases a with
  | nil => exact Nat.le_of_eq (leastEdits_cons_cons x y [] b (Or.inl rfl))
  | cons x' a =>
      cases b with
      | nil => exact Nat.le_of_eq (leastEdits_cons_cons x y (x' :: a) [] (Or.inr rfl))
      | cons y' b =>
          rw [leastEdits]
          split_ifs
          · exact min_le_left _ _
          · exact Nat.le_refl _

theorem leastEdits_swap_le (x y : Char) (a b : Text) :
    leastEdits (x :: y :: a) (y :: x :: b) ≤ leastEdits a b + 1 := by
  rw [leastEdits, if_pos (by simp)]
  exact min_le_right _ _

theorem leastEdits_delete_le (c : Char) (a b : Text) :
    leastEdits (c :: a) b ≤ leastEdits a b + 1 := by
  cases b with
  | nil => simp
  | cons y b =>
      refine (leastEdits_cons_cons_le c y a b).trans ?_
      rw [unswapped]
      omega

theorem leastEdits_insert_le (c : Char) (a b : Text) :
    leastEdits a (c :: b) ≤ leastEdits a b + 1 := by
  cases a with
  | nil => simp
  | cons x a =>
      refine (leastEdits_cons_cons_le x c a b).trans ?_
      rw [unswapped]
      omega

theorem leastEdits_pass_le (x y : Char) (a b : Text) :
    leastEdits (x :: a) (y :: b) ≤ leastEdits a b + if x == y then 0 else 1 :=
  (leastEdits_cons_cons_le x y a b).trans (min_le_right _ _)

theorem Edits.leastEdits_le (h : Edits a b n) : leastEdits a b ≤ n := by
  induction h with
  | nil => simp
  | @keep a b n c _ ih =>
      have hpass := leastEdits_pass_le c c a b
      rw [if_pos (beq_self_eq_true c)] at hpass
      exact hpass.trans ih
  | @insert a b n c _ ih => exact (leastEdits_insert_le c a b).trans (Nat.succ_le_succ ih)
  | @delete a b n c _ ih => exact (leastEdits_delete_le c a b).trans (Nat.succ_le_succ ih)
  | @substitute a b n x y _ ih =>
      refine (leastEdits_pass_le x y a b).trans ?_
      split_ifs <;> omega
  | @swap a b n x y _ ih => exact (leastEdits_swap_le x y a b).trans (Nat.succ_le_succ ih)

theorem Edits.unswapped {x y : Char} {deleting inserting passing : Nat}
    (hdelete : Edits a (y :: b) deleting) (hinsert : Edits (x :: a) b inserting)
    (hpass : Edits a b passing) :
    Edits (x :: a) (y :: b) (unswapped x y deleting inserting passing) := by
  have hfront : Edits (x :: a) (y :: b) (passing + if x == y then 0 else 1) := by
    split_ifs with hxy
    · obtain rfl := eq_of_beq hxy
      exact hpass.keep x
    · exact hpass.substitute x y
  have hone : Edits (x :: a) (y :: b) (min (deleting + 1) (inserting + 1)) := by
    rcases min_choice (deleting + 1) (inserting + 1) with hmin | hmin
    · exact (hdelete.delete x).of_eq hmin.symm
    · exact (hinsert.insert y).of_eq hmin.symm
  rw [EditDistance.unswapped]
  rcases min_choice (min (deleting + 1) (inserting + 1)) (passing + if x == y then 0 else 1)
    with hmin | hmin
  · exact hone.of_eq hmin.symm
  · exact hfront.of_eq hmin.symm

theorem edits_leastEdits (a b : Text) : Edits a b (leastEdits a b) := by
  fun_induction leastEdits a b with
  | case1 b => exact edits_insertAll b
  | case2 x a => exact (edits_insertAll (x :: a)).symm
  | case3 x y x' a y' b hswap plain hdelete hinsert hpass hboth =>
      obtain ⟨rfl, rfl⟩ : x = y' ∧ x' = y := by simpa using hswap
      rcases min_choice plain (leastEdits a b + 1) with hmin | hmin
      · exact (hdelete.unswapped hinsert hpass).of_eq hmin.symm
      · exact (hboth.swap x x').of_eq hmin.symm
  | case4 x y x' a y' b _ plain hdelete hinsert hpass => exact hdelete.unswapped hinsert hpass
  | case5 x a y b plain _ hdelete hinsert hpass => exact hdelete.unswapped hinsert hpass

theorem isLeast_leastEdits (a b : Text) : IsLeast {n | Edits a b n} (leastEdits a b) :=
  ⟨edits_leastEdits a b, fun _ h => h.leastEdits_le⟩

theorem leastEdits_reverse (a b : Text) : leastEdits a.reverse b.reverse = leastEdits a b := by
  have hback := isLeast_leastEdits a.reverse b.reverse
  simp only [edits_reverse_iff] at hback
  exact hback.unique (isLeast_leastEdits a b)

end Least

section Table

/-- A row of the table from some column on: the distances between a part of the first text and the
parts of the second one that reach at least that far. Both parts are given from their ends. -/
def distances (a : Text) : Text → Text → List Nat
  | passed, [] => [leastEdits a passed]
  | passed, y :: b => leastEdits a passed :: distances a (y :: passed) b

theorem distances_eq_cons (a passed b : Text) :
    distances a passed b = leastEdits a passed :: (distances a passed b).tail := by
  cases b <;> rfl

/-- What the row two above holds where a swap may end: it is read one column behind, and not before
the second row. -/
def IsOlder : Text → Text → Text → List Nat → Prop
  | [], _, _, _ => True
  | _ :: a, [], b, older => older = distances a [] b
  | _ :: a, y :: passed, b, older => older = distances a passed (y :: b)

theorem IsOlder.next {passed : Text} {y : Char} {older : List Nat}
    (h : IsOlder a passed (y :: b) older) :
    IsOlder a (y :: passed) b (if passed.head?.isSome then older.drop 1 else older) := by
  cases a with
  | nil => exact trivial
  | cons x' a =>
      cases passed with
      | nil => exact h
      | cons y' passed =>
          obtain rfl : older = distances a passed (y' :: y :: b) := h
          rfl

def entryFrom (x y : Char) (before passed : Option Char) (older : List Nat) (plain : Nat) : Nat :=
  match before, passed, older with
  | some x', some y', swapped :: _ =>
      if x == y' && x' == y then min plain (swapped + 1) else plain
  | _, _, _ => plain

theorem rowFrom_cons (x y : Char) (b : Text) (before passed : Option Char)
    (left diagonal up : Nat) (above older : List Nat) :
    rowFrom x before left passed (y :: b) (diagonal :: up :: above) older =
      entryFrom x y before passed older (unswapped x y up left diagonal) ::
        rowFrom x before (entryFrom x y before passed older (unswapped x y up left diagonal))
          (some y) b (up :: above) (if passed.isSome then older.drop 1 else older) :=
  rfl

theorem entryFrom_eq {passed : Text} (x y : Char) {older : List Nat}
    (holder : IsOlder a passed (y :: b) older) :
    entryFrom x y a.head? passed.head? older
        (unswapped x y (leastEdits a (y :: passed)) (leastEdits (x :: a) passed)
          (leastEdits a passed)) =
      leastEdits (x :: a) (y :: passed) := by
  cases a with
  | nil => exact (leastEdits_cons_cons x y [] passed (Or.inl rfl)).symm
  | cons x' a =>
      cases passed with
      | nil => exact (leastEdits_cons_cons x y (x' :: a) [] (Or.inr rfl)).symm
      | cons y' passed =>
          obtain rfl : older = distances a passed (y' :: y :: b) := holder
          rw [leastEdits]
          rfl

theorem rowFrom_eq {passed : Text} (x : Char) (b : Text) {older : List Nat}
    (holder : IsOlder a passed b older) :
    rowFrom x a.head? (leastEdits (x :: a) passed) passed.head? b (distances a passed b) older =
      (distances (x :: a) passed b).tail := by
  induction b generalizing passed older with
  | nil => rfl
  | cons y b ih =>
      have hrest := ih holder.next
      rw [distances_eq_cons] at hrest
      rw [distances, distances_eq_cons a (y :: passed) b, rowFrom_cons, entryFrom_eq x y holder,
        distances, List.tail_cons, distances_eq_cons (x :: a) (y :: passed) b, ← hrest]
      rfl

theorem lastRow_eq (a passed b : Text) {older : List Nat} (holder : IsOlder passed [] b older) :
    lastRow b passed.length passed.head? older (distances passed [] b) a =
      distances (a.reverse ++ passed) [] b := by
  induction a generalizing passed older with
  | nil => rfl
  | cons x a ih =>
      have hrow : (passed.length + 1) :: rowFrom x passed.head? (passed.length + 1) none b
          (distances passed [] b) older = distances (x :: passed) [] b := by
        rw [distances_eq_cons (x :: passed), ← rowFrom_eq x b holder, leastEdits_nil_right]
        rfl
      have holder : IsOlder (x :: passed) [] b (distances passed [] b) := rfl
      have hnext := ih (x :: passed) holder
      rw [lastRow, hrow, List.reverse_cons, List.append_assoc]
      exact hnext

theorem distances_nil (passed b : Text) :
    distances [] passed b = List.range' passed.length (b.length + 1) := by
  induction b generalizing passed with
  | nil => simp [distances]
  | cons y b ih => rw [distances, ih, leastEdits_nil_left]; rfl

theorem getLast?_distances (a passed b : Text) :
    (distances a passed b).getLast? = some (leastEdits a (b.reverse ++ passed)) := by
  induction b generalizing passed with
  | nil => rfl
  | cons y b ih =>
      have hlast := ih (y :: passed)
      rw [distances_eq_cons] at hlast
      rw [distances, distances_eq_cons, List.getLast?_cons_cons, hlast, List.reverse_cons,
        List.append_assoc]
      rfl

end Table

end EditDistance

open EditDistance

theorem editDistance_eq_leastEdits (a b : Text) : editDistance a b = leastEdits a b := by
  have hfirst : List.range (b.length + 1) = distances [] [] b := by
    rw [distances_nil, List.range_eq_range']
    rfl
  have holder : IsOlder [] [] b [] := trivial
  have htable := lastRow_eq a [] b holder
  rw [editDistance, hfirst]
  change ((lastRow b ([] : Text).length ([] : Text).head? [] (distances [] [] b) a).getLast?).getD 0
    = _
  rw [htable, getLast?_distances, Option.getD_some, List.append_nil, List.append_nil,
    leastEdits_reverse]

/-- The edit distance is the least number of edits, which can be found by recursion. -/
theorem isLeast_editDistance (a b : Text) :
    editDistance a b = leastEdits a b ∧ IsLeast {n | Edits a b n} (editDistance a b) ∧
      editDistance a b = editDistance b a ∧ (editDistance a b = 0 ↔ a = b) ∧
      ((a.length : Int) - b.length).natAbs ≤ editDistance a b ∧
      editDistance a b ≤ max a.length b.length := by
  have hleast (a b : Text) : IsLeast {n | Edits a b n} (editDistance a b) := by
    rw [editDistance_eq_leastEdits]
    exact isLeast_leastEdits a b
  have hedits : Edits a b (editDistance a b) := (hleast a b).1
  refine ⟨editDistance_eq_leastEdits a b, hleast a b, ?_, ⟨?_, ?_⟩, ?_, ?_⟩
  · exact le_antisymm ((hleast a b).2 (hleast b a).1.symm) ((hleast b a).2 hedits.symm)
  · intro hzero
    rw [hzero] at hedits
    exact hedits.eq_of_zero
  · rintro rfl
    exact Nat.le_zero.mp ((hleast a a).2 (Edits.refl a))
  · have hforth := hedits.length_le
    have hback := hedits.symm.length_le
    omega
  · exact (hleast a b).2 (edits_max_length a b)

end LineLint
