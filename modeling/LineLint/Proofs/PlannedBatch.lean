import LineLint.Proofs.LinePlans
import Mathlib.Data.List.Sort

/-!
# Planning and editing a whole batch

Edits are carried out from the highest line to the lowest. The lines below the next edit are still
those of the start, so each edit meets the line that it was planned for, and the whole comes to
putting new lines in the place of each line at once. The plans of a batch are for distinct lines,
and what they leave in the place of a line is the outcome of the diagnostics of that line. Plans and
what planning skips stand for the whole batch.
-/

namespace LineLint

namespace LineEdit

@[simp] theorem lineAt?_natCast (lines : List Text) (i : Nat) :
    lineAt? lines (i : Int) = lines[i]? := by
  simp [lineAt?]

/-- The lines that an edit leaves in the place of a line: the line itself if the edit fails. -/
def leaves (unit : Int) (line : Text) (e : LineEdit) : List Text :=
  match e.newLines unit line with
  | .ok new => new
  | .error _ => [line]

theorem leaves_of_ok {unit : Int} {line : Text} {e : LineEdit} {new : List Text}
    (h : e.newLines unit line = .ok new) : e.leaves unit line = new := by
  simp only [leaves, h]

theorem leaves_of_error {unit : Int} {line : Text} {e : LineEdit} {f : Fault}
    (h : e.newLines unit line = .error f) : e.leaves unit line = [line] := by
  simp only [leaves, h]

end LineEdit

namespace Fixing

def leftBy (unit : Int) (plans : List LinePlan) (index : Nat) (line : Text) : List Text :=
  match plans.find? fun plan => plan.edit.index == (index : Int) with
  | some plan => plan.edit.leaves unit line
  | none => [line]

theorem leftBy_cons_self {unit : Int} {plan : LinePlan} {index : Nat}
    (h : plan.edit.index = index) (plans : List LinePlan) (line : Text) :
    leftBy unit (plan :: plans) index line = plan.edit.leaves unit line := by
  simp [leftBy, h]

theorem leftBy_cons_of_ne {unit : Int} {plan : LinePlan} {index : Nat}
    (h : plan.edit.index ≠ index) (plans : List LinePlan) (line : Text) :
    leftBy unit (plan :: plans) index line = leftBy unit plans index line := by
  simp [leftBy, h]

theorem leftBy_of_ne {unit : Int} {plans : List LinePlan} {index : Nat}
    (h : ∀ plan ∈ plans, plan.edit.index ≠ index) (line : Text) :
    leftBy unit plans index line = [line] := by
  induction plans with
  | nil => rfl
  | cons plan plans ih =>
      rw [leftBy_cons_of_ne (h plan List.mem_cons_self)]
      exact ih fun p hp => h p (List.mem_cons_of_mem _ hp)

abbrev Descending (plans : List LinePlan) : Prop :=
  plans.Pairwise fun p q => q.edit.index < p.edit.index

theorem bottomUp_perm (plans : List LinePlan) : (bottomUp plans).Perm plans :=
  List.mergeSort_perm _ _

theorem descending_bottomUp {plans : List LinePlan}
    (h : (plans.map (·.edit.index)).Nodup) : Descending (bottomUp plans) := by
  have hsorted : (bottomUp plans).Pairwise fun p q => q.edit.index ≤ p.edit.index := by
    have hordered := @List.pairwise_mergeSort _ (fun p q : LinePlan => q.edit.index ≤ p.edit.index)
      (fun p q r hpq hqr => by simp only [decide_eq_true_eq] at *; omega)
      (fun p q => by simp only [Bool.or_eq_true, decide_eq_true_eq]; omega) plans
    exact hordered.imp (by simp)
  have hnodup : ((bottomUp plans).map (·.edit.index)).Nodup :=
    ((bottomUp_perm plans).map (·.edit.index)).nodup_iff.mpr h
  refine (hsorted.and (List.pairwise_map.mp hnodup)).imp ?_
  rintro p q ⟨hle, hne⟩
  exact lt_of_le_of_ne hle (Ne.symm hne)

theorem applyPlan_of_ok {unit : Int} {p : Progress} {plan : LinePlan} {line : Text}
    {new : List Text} (hat : LineEdit.lineAt? p.lines plan.edit.index = some line)
    (hnew : plan.edit.newLines unit line = .ok new) :
    applyPlan unit p plan =
      { p with
        lines := p.lines.take plan.edit.index.toNat ++ new ++
          p.lines.drop (plan.edit.index.toNat + 1)
        applied := p.applied ++ plan.sources } := by
  rw [applyPlan, LineEdit.apply, hat]
  simp only [hnew, Except.map]

theorem applyPlan_of_error {unit : Int} {p : Progress} {plan : LinePlan} {line : Text}
    {f : Fault} (hat : LineEdit.lineAt? p.lines plan.edit.index = some line)
    (hnew : plan.edit.newLines unit line = .error f) :
    applyPlan unit p plan = { p with skipped := p.skipped ++ skipAll f.message plan.sources } := by
  rw [applyPlan, LineEdit.apply, hat]
  simp only [hnew, Except.map]

section Buffer

variable {unit : Int} {lines : List Text} {p : Progress} {plan : LinePlan} {k i : Nat}
  {suffix : List Text}

theorem lineAt?_buffer (hp : p.lines = lines.take k ++ suffix) (hi : i < k)
    (hlt : i < lines.length) : LineEdit.lineAt? p.lines i = some lines[i] := by
  rw [hp, LineEdit.lineAt?_natCast,
    List.getElem?_append_left (by rw [List.length_take]; omega), List.getElem?_take_of_lt hi,
    List.getElem?_eq_getElem hlt]

theorem take_eq_take_append (hi : i < k) (hlt : i < lines.length) :
    lines.take k = lines.take i ++ lines[i] :: (lines.take k).drop (i + 1) := by
  have hik : i < (lines.take k).length := by rw [List.length_take]; omega
  calc
    _ = (lines.take k).take i ++ (lines.take k).drop i := (List.take_append_drop i _).symm
    _ = _ := by
      rw [List.take_take, min_eq_left hi.le, List.drop_eq_getElem_cons hik, List.getElem_take]

/-- One plan turns its line into what its edit leaves, and touches nothing above it. -/
theorem lines_applyPlan (hp : p.lines = lines.take k ++ suffix) (hplan : plan.edit.index = i)
    (hi : i < k) (hlt : i < lines.length) :
    (applyPlan unit p plan).lines = lines.take i ++
      (plan.edit.leaves unit lines[i] ++ ((lines.take k).drop (i + 1) ++ suffix)) := by
  have hat := lineAt?_buffer hp hi hlt
  rw [← hplan] at hat
  cases hnew : plan.edit.newLines unit lines[i] with
  | ok new =>
      have hi' : i ≤ (lines.take k).length := by rw [List.length_take]; omega
      have hi'' : i + 1 ≤ (lines.take k).length := by rw [List.length_take]; omega
      rw [LineEdit.leaves_of_ok hnew, applyPlan_of_ok hat hnew]
      simp only [hplan, Int.toNat_natCast, hp, List.take_append_of_le_length hi',
        List.drop_append_of_le_length hi'', List.take_take, min_eq_left hi.le, List.append_assoc]
  | error f =>
      rw [LineEdit.leaves_of_error hnew, applyPlan_of_error hat hnew, hp,
        take_eq_take_append hi hlt]
      simp only [List.append_assoc, List.cons_append, List.nil_append]
      rw [← take_eq_take_append hi hlt]

end Buffer

theorem flatten_mapIdx_eq_self {f : Nat → Text → List Text} {xs : List Text}
    (h : ∀ i x, f i x = [x]) : (xs.mapIdx f).flatten = xs := by
  induction xs generalizing f with
  | nil => rfl
  | cons x xs ih =>
      rw [List.mapIdx_cons, List.flatten_cons, h, ih fun i => h (i + 1), List.singleton_append]

/-- A run of plans that is under way: the buffer starts with the first `k` lines as they were, and
the plans that are left are for lines among them, the lowest line first. -/
structure IsBottomUp (lines : List Text) (p : Progress) (k : Nat) (suffix : List Text)
    (plans : List LinePlan) : Prop where
  descending : Descending plans
  le_length : k ≤ lines.length
  lines_eq : p.lines = lines.take k ++ suffix
  range : ∀ plan ∈ plans, 0 ≤ plan.edit.index ∧ plan.edit.index < k

/-- The next plan of a run is for one of the lines as they were, and behind it the run goes on with
the lines above that one. -/
theorem IsBottomUp.next {lines : List Text} {p : Progress} {k : Nat} {suffix : List Text}
    {plan : LinePlan} {plans : List LinePlan} (h : IsBottomUp lines p k suffix (plan :: plans))
    (unit : Int) :
    ∃ (i : Nat) (hlt : i < lines.length), plan.edit.index = i ∧ i < k ∧
      IsBottomUp lines (applyPlan unit p plan) i
        (plan.edit.leaves unit lines[i] ++ ((lines.take k).drop (i + 1) ++ suffix)) plans := by
  obtain ⟨hbelow, hdesc⟩ := List.pairwise_cons.mp h.descending
  obtain ⟨h0, hik⟩ := h.range plan List.mem_cons_self
  have hk := h.le_length
  obtain ⟨i, hi⟩ := Int.eq_ofNat_of_zero_le h0
  have hik' : i < k := by omega
  have hlt : i < lines.length := by omega
  refine ⟨i, hlt, hi, hik', hdesc, hlt.le, lines_applyPlan h.lines_eq hi hik' hlt, ?_⟩
  intro q hq
  exact ⟨(h.range q (List.mem_cons_of_mem _ hq)).1, hi ▸ hbelow q hq⟩

/-- A run of plans amounts to leaving at once what each edit leaves in the place of its line. -/
theorem lines_foldl_applyPlan {unit : Int} {lines : List Text} {plans : List LinePlan}
    {p : Progress} {k : Nat} {suffix : List Text} (h : IsBottomUp lines p k suffix plans) :
    (plans.foldl (applyPlan unit) p).lines =
      ((lines.take k).mapIdx (leftBy unit plans)).flatten ++ suffix := by
  induction plans generalizing p k suffix with
  | nil =>
      have hnone (i : Nat) (x : Text) : leftBy unit [] i x = [x] := rfl
      rw [List.foldl_nil, h.lines_eq, flatten_mapIdx_eq_self hnone]
  | cons plan plans ih =>
      obtain ⟨i, hlt, hi, hik, hnext⟩ := h.next unit
      have habove : (lines.take i).mapIdx (leftBy unit (plan :: plans)) =
          (lines.take i).mapIdx (leftBy unit plans) := by
        refine List.mapIdx_eq_mapIdx_iff.mpr fun j hj => ?_
        rw [List.length_take] at hj
        exact leftBy_cons_of_ne (by omega) plans _
      have hrest : (((lines.take k).drop (i + 1)).mapIdx fun j =>
          leftBy unit (plan :: plans) (j + 1 + (lines.take i).length)).flatten =
          (lines.take k).drop (i + 1) := by
        refine flatten_mapIdx_eq_self fun j x => leftBy_of_ne ?_ x
        intro q hq
        rw [List.length_take, min_eq_left (by omega)]
        rcases List.mem_cons.mp hq with rfl | hq
        · omega
        · have := (hnext.range q hq).2
          omega
      rw [List.foldl_cons, ih hnext]
      conv_rhs =>
        rw [take_eq_take_append hik hlt, List.mapIdx_append, List.flatten_append, habove,
          List.mapIdx_cons, List.flatten_cons, hrest, Nat.zero_add, List.length_take,
          min_eq_left (by omega), leftBy_cons_self hi]
      simp only [List.append_assoc]

/-- What a run of plans carries out and what it skips are together what the plans stand for. -/
theorem perm_foldl_applyPlan (unit : Int) (plans : List LinePlan) (p : Progress) :
    ((plans.foldl (applyPlan unit) p).applied ++
      (plans.foldl (applyPlan unit) p).skipped.map (·.diagnostic)).Perm
      (p.applied ++ p.skipped.map (·.diagnostic) ++ plans.flatMap (·.sources)) := by
  induction plans generalizing p with
  | nil => simp
  | cons plan plans ih =>
      rw [List.foldl_cons, List.flatMap_cons, ← List.append_assoc]
      refine (ih _).trans (List.Perm.append_right _ ?_)
      unfold applyPlan
      split
      · simp only [List.append_assoc]
        exact List.perm_append_comm.append_left _
      · simp only [List.map_append, map_diagnostic_skipAll, List.append_assoc]
        exact List.Perm.refl _

def AllCarriedOut (unit : Int) : Progress → List LinePlan → Prop
  | _, [] => True
  | p, plan :: plans =>
      (∃ lines, plan.edit.apply unit p.lines = .ok lines) ∧
        AllCarriedOut unit (applyPlan unit p plan) plans

theorem AllCarriedOut.applied_eq {unit : Int} {plans : List LinePlan} {p : Progress}
    (h : AllCarriedOut unit p plans) :
    (plans.foldl (applyPlan unit) p).applied = p.applied ++ plans.flatMap (·.sources) := by
  induction plans generalizing p with
  | nil => simp
  | cons plan plans ih =>
      obtain ⟨⟨lines, hlines⟩, hrest⟩ := h
      rw [List.foldl_cons, ih hrest, applyPlan, hlines, List.flatMap_cons, List.append_assoc]

theorem AllCarriedOut.skipped_eq {unit : Int} {plans : List LinePlan} {p : Progress}
    (h : AllCarriedOut unit p plans) :
    (plans.foldl (applyPlan unit) p).skipped = p.skipped := by
  induction plans generalizing p with
  | nil => rfl
  | cons plan plans ih =>
      obtain ⟨⟨lines, hlines⟩, hrest⟩ := h
      rw [List.foldl_cons, ih hrest, applyPlan, hlines]

theorem allCarriedOut_of_ok {unit : Int} {lines : List Text} {plans : List LinePlan}
    {p : Progress} {k : Nat} {suffix : List Text} (h : IsBottomUp lines p k suffix plans)
    (hok : ∀ plan ∈ plans, ∀ line, LineEdit.lineAt? lines plan.edit.index = some line →
      ∃ new, plan.edit.newLines unit line = .ok new) :
    AllCarriedOut unit p plans := by
  induction plans generalizing p k suffix with
  | nil => trivial
  | cons plan plans ih =>
      obtain ⟨i, hlt, hi, hik, hnext⟩ := h.next unit
      obtain ⟨new, hnew⟩ := hok plan List.mem_cons_self lines[i] (by
        rw [hi, LineEdit.lineAt?_natCast, List.getElem?_eq_getElem hlt])
      have hat := lineAt?_buffer h.lines_eq hik hlt
      rw [← hi] at hat
      refine ⟨?_, ih hnext fun q hq => hok q (List.mem_cons_of_mem _ hq)⟩
      rw [LineEdit.apply, hat]
      simp only [hnew, Except.map]
      exact ⟨_, rfl⟩

variable {unit : Int} {lines : List Text} {ds : List Diagnostic}

theorem mem_plans_planAll {groups : List (Int × List Diagnostic)} {plan : LinePlan} :
    plan ∈ (planAll unit lines groups).plans ↔
      ∃ g ∈ groups, planLine unit lines g.1 g.2 = .ok plan := by
  induction groups with
  | nil => simp [planAll]
  | cons g groups ih =>
      obtain ⟨index, group⟩ := g
      simp only [planAll, List.mem_cons, exists_eq_or_imp, ← ih]
      cases h : planLine unit lines index group with
      | ok q => simp [eq_comm]
      | error f => simp

theorem lineAt?_of_planLine {index : Int} {group : List Diagnostic} {plan : LinePlan}
    (h : planLine unit lines index group = .ok plan) :
    ∃ line, LineEdit.lineAt? lines index = some line := by
  cases hline : LineEdit.lineAt? lines index with
  | none => simp [planLine, hline] at h
  | some line => exact ⟨line, rfl⟩

theorem lineAt?_eq_some {index : Int} {line : Text}
    (h : LineEdit.lineAt? lines index = some line) :
    ∃ i : Nat, index = i ∧ lines[i]? = some line := by
  unfold LineEdit.lineAt? at h
  split_ifs at h with hneg
  exact ⟨index.toNat, by omega, h⟩

theorem group_ne_nil {g : Int × List Diagnostic} (h : g ∈ groupByLine ds) : g.2 ≠ [] := by
  have hgrouping := isGrouping_groupByLine ds
  obtain ⟨d, hd, hline⟩ := (hgrouping.mem_indices g.1).mp (List.mem_map.mpr ⟨g, h, rfl⟩)
  rw [hgrouping.group_eq g h]
  exact List.ne_nil_of_mem (mem_ofLine.mpr ⟨hd, hline⟩)

theorem exists_isPlanFor {plan : LinePlan}
    (h : plan ∈ (planAll unit lines (groupByLine ds)).plans) :
    ∃ (i : Nat) (line : Text), lines[i]? = some line ∧
      IsPlanFor unit i line (ofLine ds i) plan := by
  obtain ⟨g, hg, hplan⟩ := mem_plans_planAll.mp h
  obtain ⟨line, hline⟩ := lineAt?_of_planLine hplan
  obtain ⟨i, hi, hget⟩ := lineAt?_eq_some hline
  have hfor := isPlanFor_of_planLine hline (group_ne_nil hg) hplan
  rw [(isGrouping_groupByLine ds).group_eq g hg, hi] at hfor
  exact ⟨i, line, hget, hfor⟩

theorem indices_planAll_sublist {groups : List (Int × List Diagnostic)}
    (hne : ∀ g ∈ groups, g.2 ≠ []) :
    ((planAll unit lines groups).plans.map (·.edit.index)).Sublist (groups.map (·.1)) := by
  induction groups with
  | nil => simp [planAll]
  | cons g groups ih =>
      obtain ⟨index, group⟩ := g
      have hrest := ih fun g hg => hne g (List.mem_cons_of_mem _ hg)
      simp only [planAll]
      cases h : planLine unit lines index group with
      | error f => exact hrest.cons _
      | ok plan =>
          obtain ⟨line, hline⟩ := lineAt?_of_planLine h
          have hfor := isPlanFor_of_planLine hline (hne _ List.mem_cons_self) h
          simp only [List.map_cons, hfor.index_eq]
          exact hrest.cons_cons _

theorem indices_nodup_planAll (unit : Int) (lines : List Text) (ds : List Diagnostic) :
    ((planAll unit lines (groupByLine ds)).plans.map (·.edit.index)).Nodup :=
  (indices_planAll_sublist fun _ => group_ne_nil).nodup (isGrouping_groupByLine ds).indices_nodup

theorem leftBy_of_mem {plans : List LinePlan} (hnodup : (plans.map (·.edit.index)).Nodup)
    {plan : LinePlan} (hmem : plan ∈ plans) {i : Nat} (hi : plan.edit.index = i) (line : Text) :
    leftBy unit plans i line = plan.edit.leaves unit line := by
  induction plans with
  | nil => cases hmem
  | cons first plans ih =>
      rw [List.map_cons, List.nodup_cons] at hnodup
      rcases List.mem_cons.mp hmem with rfl | hmem
      · exact leftBy_cons_self hi plans line
      · have hne : first.edit.index ≠ i := by
          intro he
          exact hnodup.1 (he ▸ hi ▸ List.mem_map.mpr ⟨plan, hmem, rfl⟩)
        rw [leftBy_cons_of_ne hne, ih hnodup.2 hmem]

theorem leaves_eq_outcome {plan : LinePlan} {i : Int} {line : Text} {group : List Diagnostic}
    (h : IsPlanFor unit i line group plan) :
    plan.edit.leaves unit line = outcome unit line group := by
  have hlines := h.newLines_eq
  cases hfixed : fixedLines unit line group with
  | ok new => rw [LineEdit.leaves_of_ok (hlines.trans hfixed), outcome_of_ok hfixed]
  | error f => rw [LineEdit.leaves_of_error (hlines.trans hfixed), outcome_of_error hfixed]

/-- The plans of a batch leave, in the place of a line, the outcome of its diagnostics. -/
theorem leftBy_bottomUp_planAll {i : Nat} {line : Text} (hline : lines[i]? = some line) :
    leftBy unit (bottomUp (planAll unit lines (groupByLine ds)).plans) i line =
      outcome unit line (ofLine ds i) := by
  have hgrouping := isGrouping_groupByLine ds
  have hperm := bottomUp_perm (planAll unit lines (groupByLine ds)).plans
  have hnodup : ((bottomUp (planAll unit lines (groupByLine ds)).plans).map
      (·.edit.index)).Nodup :=
    (hperm.map (·.edit.index)).nodup_iff.mpr (indices_nodup_planAll unit lines ds)
  by_cases hplan : ∃ plan ∈ (planAll unit lines (groupByLine ds)).plans, plan.edit.index = i
  · obtain ⟨plan, hmem, hi⟩ := hplan
    obtain ⟨j, line', hget, hfor⟩ := exists_isPlanFor hmem
    obtain rfl : j = i := by have := hfor.index_eq; omega
    obtain rfl : line' = line := Option.some.inj (hget.symm.trans hline)
    rw [leftBy_of_mem hnodup (hperm.mem_iff.mpr hmem) hi, leaves_eq_outcome hfor]
  · have hnone : ∀ plan ∈ bottomUp (planAll unit lines (groupByLine ds)).plans,
        plan.edit.index ≠ i := fun plan hmem hi => hplan ⟨plan, hperm.mem_iff.mp hmem, hi⟩
    rw [leftBy_of_ne hnone]
    -- Without a plan for the line, either nothing names it or its planning has failed.
    by_cases hkey : (i : Int) ∈ (groupByLine ds).map (·.1)
    · obtain ⟨g, hg, hgi⟩ := List.mem_map.mp hkey
      have hat : LineEdit.lineAt? lines g.1 = some line := by
        rw [hgi, LineEdit.lineAt?_natCast, hline]
      cases h : planLine unit lines g.1 g.2 with
      | ok plan =>
          have hfor := isPlanFor_of_planLine hat (group_ne_nil hg) h
          exact absurd ⟨plan, mem_plans_planAll.mpr ⟨g, hg, h⟩, hfor.index_eq.trans hgi⟩ hplan
      | error f =>
          have herror := fixedLines_error_of_planLine hat (group_ne_nil hg) h
          rw [hgrouping.group_eq g hg, hgi] at herror
          rw [outcome_of_error herror]
    · have hempty : ofLine ds i = [] := by
        refine List.eq_nil_iff_forall_not_mem.mpr fun d hd => hkey ?_
        exact (hgrouping.mem_indices i).mpr ⟨d, mem_ofLine.mp hd⟩
      rw [hempty, outcome_nil]

theorem index_range_of_mem_plans {plan : LinePlan}
    (h : plan ∈ (planAll unit lines (groupByLine ds)).plans) :
    0 ≤ plan.edit.index ∧ plan.edit.index < lines.length := by
  obtain ⟨i, line, hget, hfor⟩ := exists_isPlanFor h
  obtain ⟨hlt, -⟩ := List.getElem?_eq_some_iff.mp hget
  rw [hfor.index_eq]
  omega

theorem isBottomUp_planAll {p : Progress} (hp : p.lines = lines) (ds : List Diagnostic) :
    IsBottomUp lines p lines.length [] (bottomUp (planAll unit lines (groupByLine ds)).plans) where
  descending := descending_bottomUp (indices_nodup_planAll unit lines ds)
  le_length := le_rfl
  lines_eq := by rw [List.take_length, List.append_nil, hp]
  range _ h := index_range_of_mem_plans ((bottomUp_perm _).mem_iff.mp h)

theorem lines_of_batch {p : Progress} (hp : p.lines = lines) (ds : List Diagnostic) :
    ((bottomUp (planAll unit lines (groupByLine ds)).plans).foldl (applyPlan unit) p).lines =
      (lines.mapIdx fun i line => outcome unit line (ofLine ds i)).flatten := by
  rw [lines_foldl_applyPlan (isBottomUp_planAll hp ds), List.take_length, List.append_nil]
  congr 1
  refine List.mapIdx_eq_mapIdx_iff.mpr fun i hi => ?_
  exact leftBy_bottomUp_planAll (List.getElem?_eq_getElem hi)

theorem perm_planAll {groups : List (Int × List Diagnostic)} (hne : ∀ g ∈ groups, g.2 ≠ []) :
    ((planAll unit lines groups).plans.flatMap (·.sources) ++
      (planAll unit lines groups).skipped.map (·.diagnostic)).Perm (groups.flatMap (·.2)) := by
  induction groups with
  | nil => simp [planAll]
  | cons g groups ih =>
      obtain ⟨index, group⟩ := g
      have hrest := ih fun g hg => hne g (List.mem_cons_of_mem _ hg)
      simp only [planAll, List.flatMap_cons]
      cases h : planLine unit lines index group with
      | error f =>
          simp only [List.map_append, map_diagnostic_skipAll]
          refine List.Perm.trans ?_ (hrest.append_left group)
          rw [← List.append_assoc, ← List.append_assoc]
          exact List.perm_append_comm.append_right _
      | ok plan =>
          obtain ⟨line, hline⟩ := lineAt?_of_planLine h
          have hfor := isPlanFor_of_planLine hline (hne _ List.mem_cons_self) h
          simp only [List.flatMap_cons, List.map_append, List.append_assoc]
          refine List.Perm.trans ?_ (hfor.perm.append hrest)
          rw [List.append_assoc]
          refine List.Perm.append_left _ ?_
          rw [← List.append_assoc, ← List.append_assoc]
          exact List.perm_append_comm.append_right _

end Fixing

end LineLint
