import LineLint.Fixing
import Mathlib.Data.List.Induction
import Mathlib.Data.List.Nodup

/-!
# Diagnostics grouped by line

The groups of a batch have distinct line indices, and the group of an index holds exactly the
diagnostics of that line in the order in which they came. Nothing is lost or doubled by grouping.
-/

namespace LineLint

def ofLine (ds : List Diagnostic) (index : Int) : List Diagnostic :=
  ds.filter fun d => d.line - 1 == index

@[simp] theorem ofLine_nil (index : Int) : ofLine [] index = [] := rfl

theorem ofLine_append (ds es : List Diagnostic) (index : Int) :
    ofLine (ds ++ es) index = ofLine ds index ++ ofLine es index :=
  List.filter_append ..

theorem mem_ofLine {ds : List Diagnostic} {index : Int} {d : Diagnostic} :
    d ∈ ofLine ds index ↔ d ∈ ds ∧ d.line - 1 = index := by
  simp [ofLine]

theorem ofLine_singleton_self (d : Diagnostic) : ofLine [d] (d.line - 1) = [d] := by
  simp [ofLine]

theorem ofLine_singleton_of_ne {d : Diagnostic} {index : Int} (h : index ≠ d.line - 1) :
    ofLine [d] index = [] := by
  simp [ofLine, h.symm]

namespace Fixing

/-- What grouping keeps while it goes through a batch. -/
structure IsGrouping (ds : List Diagnostic) (groups : List (Int × List Diagnostic)) : Prop where
  indices_nodup : (groups.map (·.1)).Nodup
  group_eq : ∀ g ∈ groups, g.2 = ofLine ds g.1
  mem_indices : ∀ index, index ∈ groups.map (·.1) ↔ ∃ d ∈ ds, d.line - 1 = index

theorem indices_addToGroup (d : Diagnostic) (groups : List (Int × List Diagnostic)) :
    (addToGroup d groups).map (·.1) =
      if d.line - 1 ∈ groups.map (·.1) then groups.map (·.1)
      else groups.map (·.1) ++ [d.line - 1] := by
  induction groups with
  | nil => simp [addToGroup]
  | cons g rest ih =>
      obtain ⟨index, group⟩ := g
      by_cases h : index = d.line - 1
      · simp [addToGroup, h]
      · simp only [addToGroup, beq_iff_eq, h, if_false, List.map_cons, ih, List.mem_cons,
          Ne.symm h, false_or]
        split_ifs <;> simp

theorem mem_addToGroup {d : Diagnostic} {groups : List (Int × List Diagnostic)}
    (hnodup : (groups.map (·.1)).Nodup) {g : Int × List Diagnostic}
    (hg : g ∈ addToGroup d groups) :
    (g.1 ≠ d.line - 1 ∧ g ∈ groups) ∨ g = (d.line - 1, [d]) ∧ d.line - 1 ∉ groups.map (·.1) ∨
      ∃ group, (d.line - 1, group) ∈ groups ∧ g = (d.line - 1, group ++ [d]) := by
  induction groups with
  | nil => simp_all [addToGroup]
  | cons first rest ih =>
      obtain ⟨index, group⟩ := first
      rw [List.map_cons, List.nodup_cons] at hnodup
      by_cases h : index = d.line - 1
      · subst h
        simp only [addToGroup, beq_self_eq_true, if_true, List.mem_cons] at hg
        rcases hg with rfl | hg
        · exact Or.inr (Or.inr ⟨group, by simp, rfl⟩)
        · refine Or.inl ⟨?_, List.mem_cons_of_mem _ hg⟩
          intro he
          exact hnodup.1 (he ▸ List.mem_map.mpr ⟨g, hg, rfl⟩)
      · simp only [addToGroup, beq_iff_eq, h, if_false, List.mem_cons] at hg
        rcases hg with rfl | hg
        · exact Or.inl ⟨h, by simp⟩
        · rcases ih hnodup.2 hg with ⟨hne, hm⟩ | ⟨rfl, hn⟩ | ⟨group', hm, rfl⟩
          · exact Or.inl ⟨hne, List.mem_cons_of_mem _ hm⟩
          · refine Or.inr (Or.inl ⟨rfl, ?_⟩)
            simp only [List.map_cons, List.mem_cons, not_or]
            exact ⟨Ne.symm h, hn⟩
          · exact Or.inr (Or.inr ⟨group', List.mem_cons_of_mem _ hm, rfl⟩)

theorem IsGrouping.snoc {ds : List Diagnostic} {groups : List (Int × List Diagnostic)}
    (h : IsGrouping ds groups) (d : Diagnostic) : IsGrouping (ds ++ [d]) (addToGroup d groups) where
  indices_nodup := by
    rw [indices_addToGroup]
    split_ifs with hm
    · exact h.indices_nodup
    · exact h.indices_nodup.append (List.nodup_singleton _) (by simpa using hm)
  group_eq g hg := by
    rcases mem_addToGroup h.indices_nodup hg with ⟨hne, hm⟩ | ⟨rfl, hn⟩ | ⟨group, hm, rfl⟩
    · rw [ofLine_append, ofLine_singleton_of_ne hne, List.append_nil, h.group_eq g hm]
    · have hnone : ofLine ds (d.line - 1) = [] := by
        rw [h.mem_indices] at hn
        refine List.eq_nil_iff_forall_not_mem.mpr fun e he => hn ⟨e, ?_⟩
        exact mem_ofLine.mp he
      rw [ofLine_append, hnone, ofLine_singleton_self, List.nil_append]
    · rw [ofLine_append, ofLine_singleton_self, ← h.group_eq _ hm]
  mem_indices index := by
    have hold := h.mem_indices index
    rw [indices_addToGroup]
    split_ifs with hm
    · rw [hold]
      constructor
      · rintro ⟨e, he, hline⟩
        exact ⟨e, List.mem_append_left _ he, hline⟩
      · rintro ⟨e, he, hline⟩
        rcases List.mem_append.mp he with he | he
        · exact ⟨e, he, hline⟩
        · rw [List.mem_singleton.mp he] at hline
          exact hold.mp (hline ▸ hm)
    · rw [List.mem_append, hold]
      constructor
      · rintro (⟨e, he, hline⟩ | he)
        · exact ⟨e, List.mem_append_left _ he, hline⟩
        · exact ⟨d, by simp, (List.mem_singleton.mp he).symm⟩
      · rintro ⟨e, he, hline⟩
        rcases List.mem_append.mp he with he | he
        · exact Or.inl ⟨e, he, hline⟩
        · rw [List.mem_singleton.mp he] at hline
          exact Or.inr (by simp [hline])

theorem groupByLine_snoc (ds : List Diagnostic) (d : Diagnostic) :
    groupByLine (ds ++ [d]) = addToGroup d (groupByLine ds) := by
  simp [groupByLine, List.foldl_append]

theorem isGrouping_groupByLine (ds : List Diagnostic) : IsGrouping ds (groupByLine ds) := by
  induction ds using List.reverseRecOn with
  | nil => exact ⟨List.nodup_nil, by simp [groupByLine], by simp [groupByLine]⟩
  | append_singleton ds d ih =>
      rw [groupByLine_snoc]
      exact ih.snoc d

theorem flatMap_addToGroup_perm (d : Diagnostic) (groups : List (Int × List Diagnostic)) :
    ((addToGroup d groups).flatMap (·.2)).Perm (groups.flatMap (·.2) ++ [d]) := by
  induction groups with
  | nil => simp [addToGroup]
  | cons g rest ih =>
      obtain ⟨index, group⟩ := g
      by_cases h : index = d.line - 1
      · simp only [addToGroup, h, beq_self_eq_true, if_true, List.flatMap_cons, List.append_assoc]
        exact List.perm_append_comm.append_left group
      · simp only [addToGroup, beq_iff_eq, h, if_false, List.flatMap_cons, List.append_assoc]
        exact ih.append_left group

theorem flatMap_groupByLine_perm (ds : List Diagnostic) :
    ((groupByLine ds).flatMap (·.2)).Perm ds := by
  induction ds using List.reverseRecOn with
  | nil => simp [groupByLine]
  | append_singleton ds d ih =>
      rw [groupByLine_snoc]
      exact (flatMap_addToGroup_perm d _).trans (ih.append_right [d])

end Fixing

end LineLint
