import LineLint.Proofs.SpelledHunks
import Mathlib.Data.List.Induction

/-!
# The accepted hunks

Hunks that are accepted one revision after the other stay within the line and lie apart from each
other. They are the hunks of the revisions that are not rejected, each of them once, in the order in
which they first come up.
-/

namespace LineLint

namespace Hunk

variable {h k : Hunk}

theorem not_inside_of_conflicts_eq_false (hcompatible : h.conflicts k = false)
    (hinsert : h.isInsert = true) : ¬(k.start < h.start ∧ h.start < k.stop) := by
  intro hinside
  by_cases hsame : (h == k) = true
  · rw [beq_iff_eq.mp hsame] at hinside
    omega
  · cases hk : k.isInsert with
    | true =>
        have hempty : k.start = k.stop := by simpa [isInsert] using hk
        omega
    | false => simp [conflicts, hsame, hinsert, hk, hinside] at hcompatible

theorem separate_of_conflicts_eq_false (hne : h ≠ k) (hcompatible : h.conflicts k = false)
    (hh : h.isInsert = false) (hk : k.isInsert = false) :
    h.stop ≤ k.start ∨ k.stop ≤ h.start := by
  have hoverlap : ¬(h.start < k.stop ∧ k.start < h.stop) := by
    simpa [conflicts, hne, hh, hk] using hcompatible
  omega

end Hunk

namespace Composition

/-- Hunks that can all be carried out on `base`, each of them once. -/
structure IsApart (base : Text) (hunks : List Hunk) : Prop where
  nodup : hunks.Nodup
  within : ∀ h ∈ hunks, h.start ≤ h.stop ∧ h.stop ≤ base.length
  compatible : ∀ h ∈ hunks, ∀ k ∈ hunks, h.conflicts k = false

theorem nodup_extend {accepted : List Hunk} (h : accepted.Nodup) (new : List Hunk) :
    (extend accepted new).Nodup := by
  unfold extend
  induction new generalizing accepted with
  | nil => exact h
  | cons k new ih =>
      rw [List.foldl_cons]
      split_ifs with hmem
      · exact ih h
      · refine ih (List.nodup_append.mpr ⟨h, List.pairwise_singleton _ k, ?_⟩)
        rintro a ha b hb rfl
        rw [List.mem_singleton] at hb
        subst hb
        exact hmem (List.contains_iff_mem.mpr ha)

/-- Accepted hunks lie apart from the hunks of a revision that does not clash with them. -/
theorem IsApart.extend {base revision : Text} {c : Composition} (hapart : IsApart base c.accepted)
    (hfree : c.clashes base revision = false) :
    IsApart base (extend c.accepted (Hunk.between base revision.dropIndentation)) := by
  rw [clashes_eq_false_iff] at hfree
  refine ⟨nodup_extend hapart.nodup _, fun h hh => ?_, fun h hh k hk => ?_⟩
  · rcases mem_extend.mp hh with hold | hnew
    · exact hapart.within h hold
    · exact Hunk.bounds_of_mem_between hnew
  · rcases mem_extend.mp hh with hold | hnew <;> rcases mem_extend.mp hk with kold | knew
    · exact hapart.compatible h hold k kold
    · rw [Hunk.conflicts_comm]
      exact hfree k knew h hold
    · exact hfree h hnew k kold
    · exact Hunk.conflicts_eq_false_of_mem_between hnew knew

theorem isApart_accepted_acceptFrom {base : Text} {c : Composition}
    (h : IsApart base c.accepted) (position : Nat) (revisions : List Text) :
    IsApart base (acceptFrom base c position revisions).accepted := by
  induction revisions generalizing c position with
  | nil => exact h
  | cons revision rest ih =>
      refine ih ?_ (position + 1)
      cases hclash : c.clashes base revision with
      | true => rwa [accept_of_clashes hclash]
      | false =>
          rw [accept_of_not_clashes hclash]
          exact h.extend hclash

theorem isApart_accepted_ofRevisions (base : Text) (revisions : List Text) :
    IsApart base (ofRevisions base revisions).accepted :=
  isApart_accepted_acceptFrom ⟨List.nodup_nil, by simp, by simp⟩ 0 revisions

/-- To add hunks to those that came up before keeps the first occurrence of each. -/
theorem extend_eraseDups (xs ys : List Hunk) : extend xs.eraseDups ys = (xs ++ ys).eraseDups := by
  unfold extend
  induction ys generalizing xs with
  | nil => rw [List.append_nil, List.foldl_nil]
  | cons y ys ih =>
      have hnext : (if xs.eraseDups.contains y then xs.eraseDups else xs.eraseDups ++ [y]) =
          (xs ++ [y]).eraseDups := by
        rw [List.eraseDups_append]
        by_cases hy : y ∈ xs <;> simp [List.removeAll, List.eraseDups_cons, hy]
      rw [List.foldl_cons, hnext, ih, List.append_assoc, List.singleton_append]

theorem ofRevisions_concat (base : Text) (revisions : List Text) (revision : Text) :
    ofRevisions base (revisions ++ [revision]) =
      (ofRevisions base revisions).accept base revisions.length revision := by
  rw [ofRevisions, acceptFrom_append, Nat.zero_add]
  rfl

def carriedHunks (base : Text) (rejected : List Nat) (revisions : List Text) : List Hunk :=
  ((entriesOff rejected 0 revisions).flatMap fun r =>
    Hunk.between base r.dropIndentation).eraseDups

theorem entriesOff_concat {α : Type} (positions : List Nat) (xs : List α) (x : α) :
    entriesOff positions 0 (xs ++ [x]) =
      entriesOff positions 0 xs ++ if positions.contains xs.length then [] else [x] := by
  rw [entriesOff, entriesOff, List.zipIdx_append, List.filter_append, List.map_append,
    Nat.zero_add, List.zipIdx_singleton]
  simp only [List.filter_cons, List.filter_nil]
  cases positions.contains xs.length <;> rfl

theorem entriesOff_append_length {α : Type} (positions : List Nat) (xs : List α) :
    entriesOff (positions ++ [xs.length]) 0 xs = entriesOff positions 0 xs := by
  unfold entriesOff
  refine congrArg (List.map _) (List.filter_congr fun entry hentry => ?_)
  have hlt := List.snd_lt_of_mem_zipIdx hentry
  have hne : entry.2 ≠ xs.length := by omega
  simp [hne]

theorem accepted_ofRevisions (base : Text) (revisions : List Text) :
    (ofRevisions base revisions).accepted =
      carriedHunks base (ofRevisions base revisions).rejected revisions := by
  induction revisions using List.reverseRecOn with
  | nil => rfl
  | append_singleton revisions revision ih =>
      have hnot : (ofRevisions base revisions).rejected.contains revisions.length = false := by
        have hsub := rejected_sublist_range base revisions
        rw [List.contains_eq_mem, decide_eq_false_iff_not]
        exact fun hmem => Nat.lt_irrefl _ (List.mem_range.mp (hsub.subset hmem))
      rw [ofRevisions_concat]
      cases hclash : (ofRevisions base revisions).clashes base revision with
      | true =>
          rw [accept_of_clashes hclash, carriedHunks, entriesOff_concat, entriesOff_append_length,
            if_pos (by simp), List.append_nil]
          exact ih
      | false =>
          rw [accept_of_not_clashes hclash, carriedHunks, entriesOff_concat, hnot,
            if_neg Bool.false_ne_true, List.flatMap_append, List.flatMap_singleton,
            ← extend_eraseDups]
          exact congrArg (extend · (Hunk.between base revision.dropIndentation)) ih

theorem mem_carriedHunks_iff {base : Text} {rejected : List Nat} {revisions : List Text}
    {k : Hunk} :
    k ∈ carriedHunks base rejected revisions ↔
      ∃ (j : Nat) (q : Text), revisions[j]? = some q ∧ j ∉ rejected ∧
        k ∈ Hunk.between base q.dropIndentation := by
  simp only [carriedHunks, List.mem_eraseDups, List.mem_flatMap, mem_entriesOff]
  constructor
  · rintro ⟨q, ⟨j, hget, hnot⟩, hk⟩
    exact ⟨j, q, hget, hnot, hk⟩
  · rintro ⟨j, q, hget, hnot, hk⟩
    exact ⟨q, ⟨j, hget, hnot⟩, hk⟩

theorem mem_rejected_append_iff {base : Text} {xs ys : List Text} {j : Nat} (hj : j < xs.length) :
    j ∈ (ofRevisions base (xs ++ ys)).rejected ↔ j ∈ (ofRevisions base xs).rejected := by
  obtain ⟨new, hnew, hsub⟩ := rejected_acceptFrom base (ofRevisions base xs) xs.length ys
  have hbehind : j ∉ new := fun hmem => by
    have := List.mem_range'_1.mp (hsub.subset hmem)
    omega
  rw [ofRevisions, acceptFrom_append, Nat.zero_add, ← ofRevisions, hnew, List.mem_append]
  exact or_iff_left hbehind

/-- A revision is rejected exactly if one of its hunks clashes with a hunk of an earlier revision
that is not rejected. -/
theorem mem_rejected_iff {base : Text} {revisions : List Text} {i : Nat} {r : Text}
    (hr : revisions[i]? = some r) :
    i ∈ (ofRevisions base revisions).rejected ↔
      ∃ h ∈ Hunk.between base r.dropIndentation, ∃ (j : Nat) (q : Text), j < i ∧
        revisions[j]? = some q ∧ j ∉ (ofRevisions base revisions).rejected ∧
        ∃ k ∈ Hunk.between base q.dropIndentation, h.conflicts k = true := by
  obtain ⟨xs, ys, rfl, rfl⟩ : ∃ xs ys, revisions = xs ++ r :: ys ∧ xs.length = i := by
    obtain ⟨hlt, hget⟩ := List.getElem?_eq_some_iff.mp hr
    refine ⟨revisions.take i, revisions.drop (i + 1), ?_, List.length_take_of_le (Nat.le_of_lt hlt)⟩
    rw [← hget, List.getElem_cons_drop, List.take_append_drop]
  rw [length_mem_rejected_iff, clashes]
  simp only [List.any_eq_true, accepted_ofRevisions, mem_carriedHunks_iff]
  constructor
  · rintro ⟨h, hh, k, ⟨j, q, hget, hnot, hk⟩, hconflict⟩
    obtain ⟨hlt, -⟩ := List.getElem?_eq_some_iff.mp hget
    refine ⟨h, hh, j, q, hlt, ?_, ?_, k, hk, hconflict⟩
    · rwa [List.getElem?_append_left hlt]
    · rwa [mem_rejected_append_iff hlt]
  · rintro ⟨h, hh, j, q, hlt, hget, hnot, k, hk, hconflict⟩
    rw [List.getElem?_append_left hlt] at hget
    rw [mem_rejected_append_iff hlt] at hnot
    exact ⟨h, hh, k, ⟨j, q, hget, hnot, hk⟩, hconflict⟩

end Composition

end LineLint
