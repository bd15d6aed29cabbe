import LineLint.Hunk
import Mathlib.Data.List.Basic

/-!
# The longest common block

A block that no other exceeds, and that comes before all others of its size, is the one that a
comparison takes. Hunks stay within the text that they are made for.
-/

namespace LineLint

section CommonLength

@[simp] theorem commonLength_nil_left (t : Text) : commonLength [] t = 0 := by
  simp [commonLength]

@[simp] theorem commonLength_nil_right (s : Text) : commonLength s [] = 0 := by
  simp [commonLength]

theorem commonLength_cons_cons (a b : Char) (s t : Text) :
    commonLength (a :: s) (b :: t) = if a = b then commonLength s t + 1 else 0 := by
  simp [commonLength]

theorem commonLength_append (x s t : Text) :
    commonLength (x ++ s) (x ++ t) = x.length + commonLength s t := by
  induction x with
  | nil => simp
  | cons c x ih =>
      rw [List.cons_append, List.cons_append, commonLength_cons_cons, if_pos rfl, ih,
        List.length_cons]
      omega

theorem commonLength_le_left (s t : Text) : commonLength s t ≤ s.length := by
  induction s generalizing t with
  | nil => simp
  | cons a s ih =>
      cases t with
      | nil => simp
      | cons b t =>
          rw [commonLength_cons_cons, List.length_cons]
          have := ih t
          split_ifs <;> omega

theorem take_commonLength (s t : Text) :
    s.take (commonLength s t) = t.take (commonLength s t) := by
  induction s generalizing t with
  | nil => simp
  | cons a s ih =>
      cases t with
      | nil => simp
      | cons b t =>
          rw [commonLength_cons_cons]
          split_ifs with hab
          · rw [List.take_succ_cons, List.take_succ_cons, ih, hab]
          · rfl

theorem commonLength_le_right (s t : Text) : commonLength s t ≤ t.length := by
  induction s generalizing t with
  | nil => simp
  | cons a s ih =>
      cases t with
      | nil => simp
      | cons b t =>
          rw [commonLength_cons_cons, List.length_cons]
          have := ih t
          split_ifs <;> omega

theorem getElem?_of_lt_commonLength {s t : Text} {k : Nat} (h : k < commonLength s t) :
    ∃ c, s[k]? = some c ∧ t[k]? = some c := by
  induction s generalizing t k with
  | nil => simp at h
  | cons a s ih =>
      cases t with
      | nil => simp at h
      | cons b t =>
          rw [commonLength_cons_cons] at h
          split_ifs at h with hab
          · cases k with
            | zero => exact ⟨a, rfl, by rw [hab]; rfl⟩
            | succ k => exact ih (by omega)
          · omega

end CommonLength

namespace CommonBlock

theorem larger_of_lt {best new : CommonBlock} (h : best.size < new.size) : best.larger new = new :=
  if_pos h

theorem larger_of_le {best new : CommonBlock} (h : new.size ≤ best.size) : best.larger new = best :=
  if_neg (by omega)

section Here

variable {first second s : Nat} {a b : Text} {best : CommonBlock}

theorem longestHere_eq_best (h : ∀ j, commonLength a (b.drop j) ≤ best.size) :
    longestHere first second a best b = best := by
  induction b generalizing second with
  | nil => rfl
  | cons c b ih =>
      have hkeep : best.larger ⟨first, second, commonLength a (c :: b)⟩ = best :=
        larger_of_le (h 0)
      rw [longestHere, hkeep]
      exact ih fun j => h (j + 1)

theorem longestHere_size_lt (hbest : best.size < s) (h : ∀ j, commonLength a (b.drop j) < s) :
    (longestHere first second a best b).size < s := by
  induction b generalizing second best with
  | nil => exact hbest
  | cons c b ih =>
      refine ih ?_ fun j => h (j + 1)
      unfold larger
      split_ifs
      · exact h 0
      · exact hbest

theorem longestHere_eq {j : Nat} (hbest : best.size < s) (hat : commonLength a (b.drop j) = s)
    (hbefore : ∀ i < j, commonLength a (b.drop i) < s)
    (hle : ∀ i, commonLength a (b.drop i) ≤ s) :
    longestHere first second a best b = ⟨first, second + j, s⟩ := by
  induction b generalizing second best j with
  | nil =>
      rw [List.drop_nil, commonLength_nil_right] at hat
      omega
  | cons c b ih =>
      cases j with
      | zero =>
          have hhere : commonLength a (c :: b) = s := hat
          rw [longestHere, hhere, larger_of_lt hbest]
          exact longestHere_eq_best fun i => hle (i + 1)
      | succ j =>
          have hhere : commonLength a (c :: b) < s := hbefore 0 (by omega)
          have hlarger : (best.larger ⟨first, second, commonLength a (c :: b)⟩).size < s := by
            unfold larger
            split_ifs
            · exact hhere
            · exact hbest
          rw [longestHere, ih hlarger hat (fun i hi => hbefore (i + 1) (by omega))
            fun i => hle (i + 1), Nat.add_assoc, Nat.add_comm 1]

end Here

section From

variable {first s : Nat} {a b : Text} {best : CommonBlock}

theorem longestFrom_eq_best (h : ∀ i j, commonLength (a.drop i) (b.drop j) ≤ best.size) :
    longestFrom first best b a = best := by
  induction a generalizing first with
  | nil => rfl
  | cons c a ih =>
      have hrow : ∀ j, commonLength (c :: a) (b.drop j) ≤ best.size := h 0
      rw [longestFrom, longestHere_eq_best hrow]
      exact ih fun i => h (i + 1)

theorem longestFrom_eq {i j : Nat} (hbest : best.size < s)
    (hat : commonLength (a.drop i) (b.drop j) = s)
    (hbefore : ∀ i' < i, ∀ j', commonLength (a.drop i') (b.drop j') < s)
    (hrow : ∀ j' < j, commonLength (a.drop i) (b.drop j') < s)
    (hle : ∀ i' j', commonLength (a.drop i') (b.drop j') ≤ s) :
    longestFrom first best b a = ⟨first + i, j, s⟩ := by
  induction a generalizing first best i with
  | nil =>
      rw [List.drop_nil, commonLength_nil_left] at hat
      omega
  | cons c a ih =>
      cases i with
      | zero =>
          have hhere : longestHere first 0 (c :: a) best b = ⟨first, 0 + j, s⟩ :=
            longestHere_eq hbest hat hrow (hle 0)
          rw [longestFrom, hhere, Nat.zero_add, Nat.add_zero]
          exact longestFrom_eq_best fun i' => hle (i' + 1)
      | succ i =>
          have hhere : (longestHere first 0 (c :: a) best b).size < s :=
            longestHere_size_lt hbest (hbefore 0 (by omega))
          rw [longestFrom, ih hhere hat (fun i' hi => hbefore (i' + 1) (by omega)) hrow
            fun i' => hle (i' + 1), Nat.add_assoc, Nat.add_comm 1]

end From

variable {a b : Text}

theorem longest_eq {i j s : Nat} (hpos : 0 < s) (hat : commonLength (a.drop i) (b.drop j) = s)
    (hbefore : ∀ i' < i, ∀ j', commonLength (a.drop i') (b.drop j') < s)
    (hrow : ∀ j' < j, commonLength (a.drop i) (b.drop j') < s)
    (hle : ∀ i' j', commonLength (a.drop i') (b.drop j') ≤ s) :
    longest a b = ⟨i, j, s⟩ := by
  rw [longest, longestFrom_eq hpos hat hbefore hrow hle, Nat.zero_add]

theorem longest_of_disjoint (h : ∀ c ∈ a, c ∉ b) : longest a b = ⟨0, 0, 0⟩ := by
  refine longestFrom_eq_best fun i j => ?_
  by_contra hlt
  obtain ⟨c, hc, hc'⟩ := getElem?_of_lt_commonLength (Nat.lt_of_not_le hlt)
  exact h c (List.mem_of_mem_drop (List.mem_of_getElem? hc))
    (List.mem_of_mem_drop (List.mem_of_getElem? hc'))

structure IsCommon (a b : Text) (k : CommonBlock) : Prop where
  first_le : k.first + k.size ≤ a.length
  second_le : k.second + k.size ≤ b.length
  same : (a.drop k.first).take k.size = (b.drop k.second).take k.size

/-- What two texts have in common from a place in each is a block of theirs. -/
theorem IsCommon.larger {best : CommonBlock} (hbest : IsCommon a b best) (first second : Nat) :
    IsCommon a b
      (best.larger ⟨first, second, commonLength (a.drop first) (b.drop second)⟩) := by
  unfold CommonBlock.larger
  split_ifs with hlt
  · simp only at hlt
    have hfirst := commonLength_le_left (a.drop first) (b.drop second)
    have hsecond := commonLength_le_right (a.drop first) (b.drop second)
    rw [List.length_drop] at hfirst hsecond
    exact ⟨by simp only; omega, by simp only; omega, take_commonLength _ _⟩
  · exact hbest

theorem isCommon_longestHere {first second : Nat} {best : CommonBlock} {u v : Text}
    (hbest : IsCommon a b best) (hu : a.drop first = u) (hv : b.drop second = v) :
    IsCommon a b (longestHere first second u best v) := by
  induction v generalizing second best with
  | nil => exact hbest
  | cons c v ih =>
      have hlarger : IsCommon a b (best.larger ⟨first, second, commonLength u (c :: v)⟩) := by
        rw [← hu, ← hv]
        exact hbest.larger first second
      apply ih hlarger
      rw [← List.tail_drop, hv, List.tail_cons]

theorem isCommon_longestFrom {first : Nat} {best : CommonBlock} {u : Text}
    (hbest : IsCommon a b best) (hu : a.drop first = u) :
    IsCommon a b (longestFrom first best b u) := by
  induction u generalizing first best with
  | nil => exact hbest
  | cons c u ih =>
      apply ih (isCommon_longestHere hbest hu rfl)
      rw [← List.tail_drop, hu, List.tail_cons]

theorem isCommon_longest (a b : Text) : IsCommon a b (longest a b) :=
  isCommon_longestFrom ⟨by simp, by simp, by simp⟩ rfl

end CommonBlock

namespace Hunk

@[simp] theorem betweenFrom_nil_nil (fuel offset : Nat) : betweenFrom fuel offset [] [] = [] := by
  cases fuel <;> rfl

theorem betweenFrom_of_disjoint {a b : Text} (h : ∀ c ∈ a, c ∉ b) (hne : a ≠ [] ∨ b ≠ [])
    (fuel offset : Nat) : betweenFrom fuel offset a b = [⟨offset, offset + a.length, b⟩] := by
  have hsome : (a.isEmpty && b.isEmpty) = false := by
    simpa [← not_and_or] using hne
  cases fuel with
  | zero => simp only [betweenFrom, hsome, Bool.false_eq_true, if_false]
  | succ fuel =>
      simp only [betweenFrom, CommonBlock.longest_of_disjoint h, hsome, beq_self_eq_true, if_true,
        Bool.false_eq_true, if_false]

/-- A comparison goes on at both sides of the longest common block. -/
theorem betweenFrom_of_longest {a b : Text} {block : CommonBlock}
    (h : CommonBlock.longest a b = block) (hpos : 0 < block.size) (fuel offset : Nat) :
    betweenFrom (fuel + 1) offset a b =
      betweenFrom fuel offset (a.take block.first) (b.take block.second) ++
        betweenFrom fuel (offset + (block.first + block.size)) (a.drop (block.first + block.size))
          (b.drop (block.second + block.size)) := by
  have hne : (block.size == 0) = false := by simpa using Nat.ne_of_gt hpos
  simp only [betweenFrom, h, hne, Bool.false_eq_true, if_false]

theorem bounds_of_mem_betweenFrom {fuel offset : Nat} {a b : Text} {h : Hunk}
    (hm : h ∈ betweenFrom fuel offset a b) :
    offset ≤ h.start ∧ h.start ≤ h.stop ∧ h.stop ≤ offset + a.length := by
  induction fuel generalizing offset a b with
  | zero =>
      rw [betweenFrom] at hm
      split_ifs at hm
      · cases hm
      · rw [List.mem_singleton.mp hm]
        simp only
        omega
  | succ fuel ih =>
      simp only [betweenFrom] at hm
      split_ifs at hm
      · cases hm
      · rw [List.mem_singleton.mp hm]
        simp only
        omega
      · have hblock := (CommonBlock.isCommon_longest a b).first_le
        rcases List.mem_append.mp hm with hm | hm
        · have := ih hm
          rw [List.length_take] at this
          omega
        · have := ih hm
          rw [List.length_drop] at this
          omega

theorem bounds_of_mem_between {a b : Text} {h : Hunk} (hm : h ∈ between a b) :
    h.start ≤ h.stop ∧ h.stop ≤ a.length := by
  have := bounds_of_mem_betweenFrom hm
  omega

end Hunk

end LineLint
