import LineLint.Proofs.Acceptance
import LineLint.Proofs.LongestBlock
import Mathlib.Data.List.Pairwise

/-!
# Spelling out the hunks of one revision

The hunks of a text against another lie apart from each other, and to carry them out gives the other
text. Revisions that are all the same therefore compose to what each of them says.
-/

namespace LineLint

namespace Hunk

/-- The hunks of a comparison stand in order, with at least one kept character between two of them.
-/
theorem pairwise_betweenFrom (fuel offset : Nat) (a b : Text) :
    (betweenFrom fuel offset a b).Pairwise fun h k => h.stop < k.start := by
  induction fuel generalizing offset a b with
  | zero =>
      rw [betweenFrom]
      split_ifs <;> simp
  | succ fuel ih =>
      simp only [betweenFrom]
      split_ifs with hsize hempty
      · simp
      · simp
      · have hpos : (CommonBlock.longest a b).size ≠ 0 := by simpa using hsize
        refine List.pairwise_append.mpr ⟨ih _ _ _, ih _ _ _, fun h hh k hk => ?_⟩
        have hleft := (bounds_of_mem_betweenFrom hh).2.2
        have hright := (bounds_of_mem_betweenFrom hk).1
        rw [List.length_take] at hleft
        omega

theorem pairwise_between (a b : Text) : (between a b).Pairwise fun h k => h.stop < k.start :=
  pairwise_betweenFrom ..

theorem conflicts_self (h : Hunk) : h.conflicts h = false := by
  simp [conflicts]

theorem conflicts_comm (h k : Hunk) : h.conflicts k = k.conflicts h := by
  have hbeq : (h == k) = (k == h) := BEq.comm
  unfold conflicts
  rw [hbeq]
  by_cases heq : (k == h) = true
  · simp [heq]
  · cases h.isInsert <;> cases k.isInsert <;> simp [heq, Bool.and_comm]

theorem conflicts_eq_false_of_lt {h k : Hunk} (hlt : h.stop < k.start) (hh : h.start ≤ h.stop) :
    h.conflicts k = false := by
  unfold conflicts
  split_ifs
  all_goals first
    | rfl
    | simp only [Bool.and_eq_false_iff, decide_eq_false_iff_not]
      omega

theorem eq_or_apart_of_mem_between {a b : Text} {h k : Hunk} (hh : h ∈ between a b)
    (hk : k ∈ between a b) : h = k ∨ h.stop < k.start ∨ k.stop < h.start := by
  have hapart : (between a b).Pairwise fun h k => h.stop < k.start ∨ k.stop < h.start :=
    (pairwise_between a b).imp Or.inl
  have hsymm : Std.Symm fun h k : Hunk => h.stop < k.start ∨ k.stop < h.start :=
    ⟨fun h k => Or.symm⟩
  exact or_iff_not_imp_left.mpr (hapart.forall hh hk)

theorem conflicts_eq_false_of_mem_between {a b : Text} {h k : Hunk} (hh : h ∈ between a b)
    (hk : k ∈ between a b) : h.conflicts k = false := by
  rcases eq_or_apart_of_mem_between hh hk with rfl | hlt | hlt
  · exact conflicts_self h
  · exact conflicts_eq_false_of_lt hlt (bounds_of_mem_between hh).1
  · rw [conflicts_comm]
    exact conflicts_eq_false_of_lt hlt (bounds_of_mem_between hk).1

theorem nodup_between (a b : Text) : (between a b).Nodup := by
  refine (pairwise_between a b).imp_of_mem fun {h k} hh _ hlt => ?_
  have hle := (bounds_of_mem_between hh).1
  rintro rfl
  omega

end Hunk

namespace Composition

theorem spell_cons {base : Text} {cursor : Nat} {h : Hunk} (hle : cursor ≤ h.start)
    (hunks : List Hunk) :
    spell base cursor (h :: hunks) =
      (base.drop cursor).take (h.start - cursor) ++ h.text ++
        spell base (max h.start h.stop) hunks := by
  have hgap : (if cursor < h.start then Text.slice base cursor h.start else []) =
      (base.drop cursor).take (h.start - cursor) := by
    rw [← List.drop_take]
    split_ifs with hlt
    · rfl
    · have hnil : (base.take h.start).length ≤ cursor := by
        rw [List.length_take]
        omega
      exact (List.drop_eq_nil_of_le hnil).symm
  rw [spell, hgap, Nat.max_eq_right hle]

theorem spell_eq_take_append {base : Text} {hunks : List Hunk} {cursor n : Nat}
    (h : ∀ k ∈ hunks, cursor + n ≤ k.start) :
    spell base cursor hunks = (base.drop cursor).take n ++ spell base (cursor + n) hunks := by
  cases hunks with
  | nil =>
      rw [spell, spell, ← List.drop_drop]
      exact (List.take_append_drop n (base.drop cursor)).symm
  | cons k hunks =>
      have hk : cursor + n ≤ k.start := h k List.mem_cons_self
      have hgap : k.start - cursor = n + (k.start - (cursor + n)) := by omega
      rw [spell_cons (by omega), spell_cons hk, hgap, List.take_add, List.drop_drop]
      simp only [List.append_assoc]

theorem spell_whole (base a b : Text) (offset : Nat) (rest : List Hunk) :
    spell base offset
        ((if a.isEmpty && b.isEmpty then [] else [⟨offset, offset + a.length, b⟩]) ++ rest) =
      b ++ spell base (offset + a.length) rest := by
  split_ifs with hempty
  · obtain ⟨rfl, rfl⟩ : a = [] ∧ b = [] := by simpa using hempty
    rfl
  · have hcons := @spell_cons base offset ⟨offset, offset + a.length, b⟩ (Nat.le_refl offset) rest
    simpa using hcons

/-- Two parts that are spelled around a common block are spelled together with the block. -/
theorem spell_around_block {base a b after : Text} {offset : Nat} {block : CommonBlock}
    {left right rest : List Hunk} (hbase : base.drop offset = a ++ after)
    (hblock : CommonBlock.IsCommon a b block)
    (hleft : spell base offset (left ++ right) =
      b.take block.second ++ spell base (offset + block.first) right)
    (hright : spell base (offset + block.first + block.size) right =
      b.drop (block.second + block.size) ++ spell base (offset + a.length) rest)
    (hbehind : ∀ k ∈ right, offset + block.first + block.size ≤ k.start) :
    spell base offset (left ++ right) = b ++ spell base (offset + a.length) rest := by
  obtain ⟨hfirst, -, hsame⟩ := hblock
  have hmiddle : (base.drop (offset + block.first)).take block.size =
      (b.drop block.second).take block.size := by
    rw [← hsame, ← List.drop_drop, hbase, List.drop_append_of_le_length (by omega),
      List.take_append_of_le_length (by rw [List.length_drop]; omega)]
  have hparts : b.take block.second ++ (b.drop block.second).take block.size ++
      b.drop (block.second + block.size) = b := by
    rw [← List.take_add, List.take_append_drop]
  calc spell base offset (left ++ right)
      = b.take block.second ++ ((b.drop block.second).take block.size ++
          (b.drop (block.second + block.size) ++ spell base (offset + a.length) rest)) := by
        rw [hleft, spell_eq_take_append hbehind, hmiddle, hright]
    _ = b ++ spell base (offset + a.length) rest := by
        rw [← List.append_assoc, ← List.append_assoc, hparts]

/-- The hunks of a part of the base are spelled as the text that the part is compared with. -/
theorem spell_betweenFrom_append {base a b after : Text} {offset fuel : Nat} {rest : List Hunk}
    (hbase : base.drop offset = a ++ after)
    (hrest : ∀ k ∈ rest, offset + a.length ≤ k.start) :
    spell base offset (Hunk.betweenFrom fuel offset a b ++ rest) =
      b ++ spell base (offset + a.length) rest := by
  induction fuel generalizing offset a b after rest with
  | zero => exact spell_whole ..
  | succ fuel ih =>
      simp only [Hunk.betweenFrom]
      by_cases hsize : ((CommonBlock.longest a b).size == 0) = true
      · rw [if_pos hsize]
        exact spell_whole ..
      rw [if_neg hsize]
      have hblock := CommonBlock.isCommon_longest a b
      generalize CommonBlock.longest a b = block at hblock
      have hfirst := hblock.first_le
      have hlength : (a.take block.first).length = block.first :=
        List.length_take_of_le (by omega)
      have hstop : offset + (block.first + block.size) +
          (a.drop (block.first + block.size)).length = offset + a.length := by
        rw [List.length_drop]
        omega
      have hleft : base.drop offset = a.take block.first ++ (a.drop block.first ++ after) := by
        rw [hbase, ← List.append_assoc, List.take_append_drop]
      have hright : base.drop (offset + (block.first + block.size)) =
          a.drop (block.first + block.size) ++ after := by
        rw [← List.drop_drop, hbase, List.drop_append_of_le_length hfirst]
      -- what follows the left part starts behind the common block
      have hbehind : ∀ k ∈ Hunk.betweenFrom fuel (offset + (block.first + block.size))
          (a.drop (block.first + block.size)) (b.drop (block.second + block.size)) ++ rest,
          offset + block.first + block.size ≤ k.start := by
        intro k hk
        rcases List.mem_append.mp hk with hk | hk
        · have hbound := (Hunk.bounds_of_mem_betweenFrom hk).1
          omega
        · have hbound := hrest k hk
          omega
      rw [List.append_assoc]
      refine spell_around_block hbase hblock ?_ ?_ hbehind
      · rw [ih hleft fun k hk => ?_, hlength]
        have hbound := hbehind k hk
        omega
      · rw [Nat.add_assoc offset, ih hright fun k hk => ?_, hstop]
        exact Nat.le_trans (Nat.le_of_eq hstop) (hrest k hk)

/-- To carry out the hunks of a revision gives the revision. -/
theorem spell_between (a b : Text) : spell a 0 (Hunk.between a b) = b := by
  have hbase : a.drop 0 = a ++ [] := by simp
  have hspell :
      spell a 0 (Hunk.betweenFrom a.length 0 a b ++ []) = b ++ spell a (0 + a.length) [] :=
    spell_betweenFrom_append hbase (by simp)
  rw [List.append_nil, Nat.zero_add, spell, List.drop_length, List.append_nil] at hspell
  exact hspell

theorem extend_nil_of_nodup {hunks : List Hunk} (h : hunks.Nodup) : extend [] hunks = hunks := by
  have hstep (accepted new : List Hunk) (hnodup : (accepted ++ new).Nodup) :
      extend accepted new = accepted ++ new := by
    unfold extend
    induction new generalizing accepted with
    | nil => simp
    | cons k new ih =>
        have hk : k ∉ accepted := fun hmem =>
          (List.nodup_append.mp hnodup).2.2 k hmem k List.mem_cons_self rfl
        rw [List.foldl_cons, if_neg (by simpa using hk), ih _ (by simpa using hnodup)]
        simp
  exact hstep [] hunks (by simpa using h)

theorem extend_eq_self {accepted new : List Hunk} (h : ∀ k ∈ new, k ∈ accepted) :
    extend accepted new = accepted := by
  unfold extend
  induction new with
  | nil => rfl
  | cons k new ih =>
      have hk : accepted.contains k = true := by simpa using h k List.mem_cons_self
      rw [List.foldl_cons, if_pos hk]
      exact ih fun k hk => h k (List.mem_cons_of_mem _ hk)

theorem acceptFrom_replicate (base revision : Text) (position n : Nat) :
    acceptFrom base ⟨Hunk.between base revision.dropIndentation, []⟩ position
        (List.replicate n revision) =
      ⟨Hunk.between base revision.dropIndentation, []⟩ := by
  induction n generalizing position with
  | zero => rfl
  | succ n ih =>
      have hnone :
          clashes base ⟨Hunk.between base revision.dropIndentation, []⟩ revision = false := by
        rw [clashes_eq_false_iff]
        exact fun h hh k hk => Hunk.conflicts_eq_false_of_mem_between hh hk
      rw [List.replicate_succ, acceptFrom, accept_of_not_clashes hnone,
        extend_eq_self fun k hk => hk]
      exact ih (position + 1)

theorem ofRevisions_replicate (base revision : Text) (n : Nat) :
    ofRevisions base (List.replicate (n + 1) revision) =
      ⟨Hunk.between base revision.dropIndentation, []⟩ := by
  have hnone : clashes base {} revision = false := by simp [clashes]
  rw [ofRevisions, List.replicate_succ, acceptFrom, accept_of_not_clashes hnone,
    extend_nil_of_nodup (Hunk.nodup_between _ _)]
  exact acceptFrom_replicate base revision 1 n

/-- No insertion of a single comparison touches a replacement of it. -/
theorem absorbed_between_eq_false {a b : Text} {h : Hunk} (hh : h ∈ Hunk.between a b) :
    absorbed ((Hunk.between a b).filter fun k => !k.isInsert) h = false := by
  by_contra habsorbed
  simp only [absorbed, Bool.not_eq_false, Bool.and_eq_true, List.any_eq_true, List.mem_filter,
    Bool.not_eq_true', Bool.or_eq_true, beq_iff_eq] at habsorbed
  obtain ⟨⟨hinsert, -⟩, k, ⟨hk, hreplace⟩, htouch⟩ := habsorbed
  have hempty : h.start = h.stop := by simpa [Hunk.isInsert] using hinsert
  have hle := (Hunk.bounds_of_mem_between hk).1
  rcases Hunk.eq_or_apart_of_mem_between hh hk with rfl | hlt
  · rw [hinsert] at hreplace
    cases hreplace
  · rcases htouch with ⟨hstart, -⟩ | ⟨hstop, -⟩
    · omega
    · omega

theorem mergeSort_between (a b : Text) :
    (Hunk.between a b).mergeSort before = Hunk.between a b := by
  have hsorted : (Hunk.between a b).Pairwise fun h k => before h k = true := by
    refine (Hunk.pairwise_between a b).imp_of_mem fun {h k} hh _ hlt => ?_
    have hle := (Hunk.bounds_of_mem_between hh).1
    have hfirst : h.start < k.start := by omega
    simp [before, hfirst]
  exact List.mergeSort_of_pairwise hsorted

theorem composeRevisions_replicate (line revision : Text) (n : Nat) :
    composeRevisions line (List.replicate (n + 1) revision) = (revision.dropIndentation, []) := by
  unfold composeRevisions
  simp only [ofRevisions_replicate, merged]
  rw [List.filter_eq_self.mpr fun h hh => ?_, mergeSort_between, spell_between]
  rw [absorbed_between_eq_false hh, Bool.not_false]

end Composition

end LineLint
