import LineLint.Compose
import Mathlib.Data.List.Basic

/-!
# Acceptance of revisions

Revisions of a line are accepted or rejected one after the other, so the verdict on one depends only
on those before it. The positions of the rejected ones are listed in order and once each, and they
part a list of revisions into those that are carried out and those that are left out.
-/

namespace LineLint

namespace Composition

def clashes (base : Text) (c : Composition) (revision : Text) : Bool :=
  (Hunk.between base revision.dropIndentation).any fun h => c.accepted.any fun k => h.conflicts k

theorem accept_of_clashes {base : Text} {c : Composition} {revision : Text}
    (h : c.clashes base revision = true) (position : Nat) :
    c.accept base position revision = { c with rejected := c.rejected ++ [position] } :=
  if_pos h

theorem accept_of_not_clashes {base : Text} {c : Composition} {revision : Text}
    (h : c.clashes base revision = false) (position : Nat) :
    c.accept base position revision =
      { c with accepted := extend c.accepted (Hunk.between base revision.dropIndentation) } :=
  if_neg (by simpa [clashes] using h)

theorem acceptFrom_append (base : Text) (c : Composition) (position : Nat) (xs ys : List Text) :
    acceptFrom base c position (xs ++ ys) =
      acceptFrom base (acceptFrom base c position xs) (position + xs.length) ys := by
  induction xs generalizing c position with
  | nil => rfl
  | cons x xs ih =>
      simp only [List.cons_append, acceptFrom, ih, List.length_cons]
      rw [Nat.add_assoc, Nat.add_comm 1]

/-- Rejections are recorded in the order of the revisions, behind those recorded before. -/
theorem rejected_acceptFrom (base : Text) (c : Composition) (position : Nat)
    (revisions : List Text) :
    ∃ new, (acceptFrom base c position revisions).rejected = c.rejected ++ new ∧
      new.Sublist (List.range' position revisions.length) := by
  induction revisions generalizing c position with
  | nil => exact ⟨[], by simp [acceptFrom], List.Sublist.slnil⟩
  | cons revision rest ih =>
      obtain ⟨new, hnew, hsub⟩ := ih (c.accept base position revision) (position + 1)
      rw [List.length_cons, List.range'_succ]
      cases h : c.clashes base revision with
      | true =>
          rw [accept_of_clashes h] at hnew
          refine ⟨position :: new, ?_, hsub.cons_cons _⟩
          rw [acceptFrom, accept_of_clashes h, hnew, List.append_assoc, List.singleton_append]
      | false =>
          rw [accept_of_not_clashes h] at hnew
          refine ⟨new, ?_, hsub.cons _⟩
          rw [acceptFrom, accept_of_not_clashes h, hnew]

theorem rejected_sublist_range (base : Text) (revisions : List Text) :
    (ofRevisions base revisions).rejected.Sublist (List.range revisions.length) := by
  obtain ⟨new, hnew, hsub⟩ := rejected_acceptFrom base {} 0 revisions
  rw [ofRevisions, hnew, List.range_eq_range']
  exact hsub

/-- A revision is rejected exactly if it clashes with what is accepted of those before it. -/
theorem length_mem_rejected_iff (base : Text) (xs ys : List Text) (revision : Text) :
    xs.length ∈ (ofRevisions base (xs ++ revision :: ys)).rejected ↔
      (ofRevisions base xs).clashes base revision = true := by
  obtain ⟨before, hbefore, hsub⟩ := rejected_acceptFrom base {} 0 xs
  have hnot : xs.length ∉ (acceptFrom base {} 0 xs).rejected := by
    rw [hbefore]
    intro hm
    have := List.mem_range'_1.mp (hsub.subset (by simpa using hm))
    omega
  obtain ⟨after, hafter, hsub'⟩ :=
    rejected_acceptFrom base ((acceptFrom base {} 0 xs).accept base xs.length revision)
      (xs.length + 1) ys
  have hnot' : xs.length ∉ after := by
    intro hm
    have := List.mem_range'_1.mp (hsub'.subset hm)
    omega
  rw [ofRevisions, acceptFrom_append, Nat.zero_add, acceptFrom, hafter, ofRevisions]
  cases h : (acceptFrom base {} 0 xs).clashes base revision with
  | true => simp [accept_of_clashes h]
  | false => simp [accept_of_not_clashes h, hnot, hnot']

theorem mem_extend {accepted new : List Hunk} {k : Hunk} :
    k ∈ extend accepted new ↔ k ∈ accepted ∨ k ∈ new := by
  unfold extend
  induction new generalizing accepted with
  | nil => simp
  | cons h new ih =>
      rw [List.foldl_cons, ih, List.mem_cons]
      split_ifs with hc
      · have hmem : h ∈ accepted := by simpa using hc
        constructor
        · rintro (hk | hk)
          · exact Or.inl hk
          · exact Or.inr (Or.inr hk)
        · rintro (hk | rfl | hk)
          · exact Or.inl hk
          · exact Or.inl hmem
          · exact Or.inr hk
      · rw [List.mem_append, List.mem_singleton, or_assoc]

theorem mem_accepted_acceptFrom {base : Text} {c : Composition} {position : Nat}
    {revisions : List Text} {k : Hunk} (h : k ∈ c.accepted) :
    k ∈ (acceptFrom base c position revisions).accepted := by
  induction revisions generalizing c position with
  | nil => exact h
  | cons revision rest ih =>
      refine ih ?_
      cases hclash : c.clashes base revision with
      | true => rwa [accept_of_clashes hclash]
      | false =>
          rw [accept_of_not_clashes hclash]
          exact mem_extend.mpr (Or.inl h)

theorem clashes_ofRevisions_append {base revision : Text} {xs : List Text}
    (h : (ofRevisions base xs).clashes base revision = true) (ys : List Text) :
    (ofRevisions base (xs ++ ys)).clashes base revision = true := by
  simp only [clashes, List.any_eq_true] at h ⊢
  obtain ⟨hunk, hhunk, k, hk, hconflict⟩ := h
  refine ⟨hunk, hhunk, k, ?_, hconflict⟩
  rw [ofRevisions, acceptFrom_append]
  exact mem_accepted_acceptFrom hk

theorem clashes_eq_false_iff {base revision : Text} {c : Composition} :
    c.clashes base revision = false ↔
      ∀ h ∈ Hunk.between base revision.dropIndentation, ∀ k ∈ c.accepted,
        h.conflicts k = false := by
  simp [clashes]

end Composition

section Positions

variable {α : Type}

/-- The entries of a list whose positions, counted from `first`, are not listed. -/
def entriesOff (positions : List Nat) (first : Nat) (xs : List α) : List α :=
  ((xs.zipIdx first).filter fun entry => !positions.contains entry.2).map (·.1)

theorem filterMap_positions_eq (xs : List α) (first : Nat) (positions : List Nat)
    (h : positions.Sublist (List.range' first xs.length)) :
    positions.filterMap (fun position => xs[position - first]?) =
      ((xs.zipIdx first).filter fun entry => positions.contains entry.2).map (·.1) := by
  induction xs generalizing first positions with
  | nil => simp [List.sublist_nil.mp h]
  | cons x xs ih =>
      rw [List.length_cons, List.range'_succ] at h
      have hshift (ps : List Nat) (hs : ps.Sublist (List.range' (first + 1) xs.length)) :
          ps.filterMap (fun position => (x :: xs)[position - first]?) =
            ps.filterMap (fun position => xs[position - (first + 1)]?) := by
        apply List.filterMap_congr
        intro position hm
        have hlt := (List.mem_range'_1.mp (hs.subset hm)).1
        obtain ⟨k, rfl⟩ := Nat.exists_eq_add_of_le hlt
        rw [Nat.add_sub_cancel_left, show first + 1 + k - first = k + 1 by omega,
          List.getElem?_cons_succ]
      rw [List.zipIdx_cons]
      cases h with
      | cons _ hs =>
          have hnot : first ∉ positions := by
            intro hm
            have := (List.mem_range'_1.mp (hs.subset hm)).1
            omega
          rw [hshift positions hs, ih (first + 1) positions hs, List.filter_cons_of_neg (by simpa)]
      | cons_cons _ hs =>
          rename_i rest
          rw [List.filterMap_cons_some (b := x) (by simp), hshift rest hs, ih (first + 1) rest hs,
            List.filter_cons_of_pos (by simp), List.map_cons]
          congr 2
          apply List.filter_congr
          intro entry hm
          have hlt := List.le_snd_of_mem_zipIdx hm
          have hne : entry.2 ≠ first := by omega
          simp [hne]

/-- Increasing positions part a list into the entries off them and the entries at them. -/
theorem entriesOff_append_perm (xs : List α) (positions : List Nat)
    (h : positions.Sublist (List.range xs.length)) :
    (entriesOff positions 0 xs ++ positions.filterMap fun position => xs[position]?).Perm xs := by
  have hat := filterMap_positions_eq xs 0 positions (by rwa [← List.range_eq_range'])
  simp only [Nat.sub_zero] at hat
  rw [hat, entriesOff, ← List.map_append]
  have hparts : ((xs.zipIdx.filter fun entry => !positions.contains entry.2) ++
      xs.zipIdx.filter fun entry => positions.contains entry.2).Perm xs.zipIdx :=
    List.perm_append_comm.trans (List.filter_append_perm _ _)
  simpa using hparts.map (·.1)

theorem mem_entriesOff {positions : List Nat} {xs : List α} {x : α} :
    x ∈ entriesOff positions 0 xs ↔ ∃ i : Nat, xs[i]? = some x ∧ i ∉ positions := by
  simp only [entriesOff, List.mem_map, List.mem_filter, Prod.exists, List.mem_zipIdx_iff_getElem?,
    Bool.not_eq_true', List.contains_eq_mem, decide_eq_false_iff_not]
  constructor
  · rintro ⟨y, i, ⟨hget, hnot⟩, rfl⟩
    exact ⟨i, hget, hnot⟩
  · rintro ⟨i, hget, hnot⟩
    exact ⟨x, i, ⟨hget, hnot⟩, rfl⟩

theorem takeWhile_bne_append [DecidableEq α] {xs : List α} {x : α} (h : x ∉ xs) (ys : List α) :
    (xs ++ x :: ys).takeWhile (· != x) = xs := by
  have hne : ∀ y ∈ xs, (y != x) = true := by
    intro y hy
    have hdiffers : y ≠ x := fun he => h (he ▸ hy)
    simpa using hdiffers
  rw [List.takeWhile_append_of_pos hne]
  simp

theorem exists_append_of_getElem?_eq_some {before after : List α} {x : α} {i : Nat}
    (hbefore : x ∉ before) (hget : (before ++ x :: after)[i]? = some x) :
    ∃ between rest, before ++ x :: after = before ++ between ++ x :: rest ∧
      (before ++ between).length = i := by
  obtain ⟨hlt, hat⟩ := List.getElem?_eq_some_iff.mp hget
  have hle : before.length ≤ i := by
    by_contra hless
    rw [List.getElem?_append_left (by omega)] at hget
    exact hbefore (List.mem_of_getElem? hget)
  have htake : (before ++ x :: after).take i =
      before ++ (x :: after).take (i - before.length) := by
    rw [List.take_append, List.take_of_length_le hle]
  refine ⟨(x :: after).take (i - before.length), (before ++ x :: after).drop (i + 1), ?_, ?_⟩
  · rw [← htake]
    conv_lhs => rw [← List.take_append_drop i (before ++ x :: after),
      List.drop_eq_getElem_cons hlt, hat]
  · rw [← htake, List.length_take]
    omega

end Positions

end LineLint
