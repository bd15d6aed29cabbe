import LineLint.Proofs.SimultaneousFixes

/-!
# Batches without failures

With an indent unit that widths can be rounded to and with every local fix aimed at a line of the
text, each line is planned and each plan is carried out. What is skipped then stands back behind
another fix of its line.
-/

namespace LineLint

namespace Indentation

/-- An indent unit that widths can be measured in and rounded to. -/
structure IsUsable (unit : Int) : Prop where
  ne_zero : unit ≠ 0
  tabWidth : isTabWidth unit = true

theorem isUsable_four : IsUsable 4 := ⟨by decide, by decide⟩

theorem isTabWidth_iff {unit : Int} :
    isTabWidth unit = true ↔ -2147483648 ≤ unit ∧ unit < 2147483648 := by
  simp [isTabWidth]

theorem measureLine_of_isTabWidth_eq_false {unit : Int} (h : isTabWidth unit = false) (line : Text) :
    measureLine unit line = .error .tabRange :=
  if_neg (by rw [h]; exact Bool.false_ne_true)

variable {unit : Int} (h : IsUsable unit)
include h

theorem measureLine_of_isUsable (line : Text) : measureLine unit line = .ok (lineWidth unit line) :=
  if_pos h.tabWidth

theorem beyond_of_isUsable (w : Int) : beyond w unit = .ok (Int.fmod w unit) :=
  if_neg (by simpa using h.ne_zero)

theorem nearest_of_isUsable (w : Int) : ∃ rounded, nearest w unit = .ok rounded :=
  ⟨_, if_neg (by simpa using h.ne_zero)⟩

theorem next_of_isUsable (w : Int) : ∃ deeper, next w unit = .ok deeper := by
  unfold next
  rw [beyond_of_isUsable h]
  by_cases hzero : Int.fmod w unit = 0
  · exact ⟨w + unit, if_pos (by simpa using hzero)⟩
  · exact ⟨(Int.fdiv w unit + 1) * unit, if_neg (by simpa using hzero)⟩

theorem reindentLine_of_isUsable (line new : Text) (ownIndent : Bool) :
    ∃ result, reindentLine unit line new ownIndent = .ok result := by
  unfold reindentLine
  split_ifs
  · obtain ⟨rounded, hrounded⟩ := nearest_of_isUsable h (lineWidth unit new)
    rw [measureLine_of_isUsable h]
    simp only [bind, Except.bind, hrounded]
    exact ⟨_, rfl⟩
  · exact ⟨_, rfl⟩
  · exact ⟨_, rfl⟩

theorem reindentBlock_of_isUsable (line : Text) (lines : List Text) :
    ∃ block, reindentBlock unit line lines = .ok block := by
  obtain ⟨deeper, hdeeper⟩ := next_of_isUsable h (lineWidth unit line)
  rw [reindentBlock, measureLine_of_isUsable h]
  simp only [bind, Except.bind, hdeeper]
  exact ⟨_, rfl⟩

end Indentation

namespace Fixing

open Indentation

section Line

variable {unit : Int} (h : IsUsable unit)
include h

theorem replacedLines_of_isUsable (line : Text) (d : Diagnostic) :
    ∃ new, replacedLines unit line d = .ok new := by
  unfold replacedLines
  split_ifs
  · exact reindentBlock_of_isUsable h line _
  · obtain ⟨new, hnew⟩ := reindentLine_of_isUsable h line d.newText d.setsIndent
    exact ⟨[new], by rw [hnew, Except.map]⟩

theorem composedLines_of_isUsable (line : Text) (group : List Diagnostic) :
    ∃ new, composedLines unit line group = .ok new := by
  unfold composedLines
  simp only
  split_ifs
  · obtain ⟨block, hblock⟩ := reindentBlock_of_isUsable h _ _
    exact ⟨_, by rw [hblock, Except.map]⟩
  · obtain ⟨new, hnew⟩ := reindentLine_of_isUsable h line _ _
    exact ⟨[new], by rw [hnew, Except.map]⟩

theorem fixedLines_of_isUsable (line : Text) (group : List Diagnostic) :
    ∃ new, fixedLines unit line group = .ok new := by
  unfold fixedLines
  split_ifs
  · exact ⟨[], rfl⟩
  · match group with
    | [] => exact ⟨[line], rfl⟩
    | [d] => exact replacedLines_of_isUsable h line d
    | d :: e :: rest => exact composedLines_of_isUsable h line (d :: e :: rest)

theorem planLine_of_isUsable {lines : List Text} {index : Int} {line : Text}
    (hline : LineEdit.lineAt? lines index = some line) {group : List Diagnostic}
    (hne : group ≠ []) : ∃ plan, planLine unit lines index group = .ok plan := by
  obtain ⟨new, hnew⟩ := fixedLines_of_isUsable h line group
  cases hplan : planLine unit lines index group with
  | ok plan => exact ⟨plan, rfl⟩
  | error f =>
      rw [fixedLines_error_of_planLine hline hne hplan] at hnew
      cases hnew

end Line

theorem reason_of_mem_leftOut {line : Text} {group : List Diagnostic} {s : SkippedFix}
    (h : s ∈ leftOut line group) :
    s.reason = "overlaps an earlier fix on the same line".toList ∨
      s.reason = "superseded by a deletion on the same line".toList := by
  unfold leftOut at h
  split_ifs at h
  · obtain ⟨d, -, rfl⟩ := List.mem_map.mp h
    exact Or.inr rfl
  · obtain ⟨d, -, rfl⟩ := List.mem_map.mp h
    exact Or.inl rfl

theorem mem_skipped_planAll {unit : Int} {lines : List Text} {groups : List (Int × List Diagnostic)}
    (hplanned : ∀ g ∈ groups, ∃ plan, planLine unit lines g.1 g.2 = .ok plan) {s : SkippedFix}
    (h : s ∈ (planAll unit lines groups).skipped) :
    ∃ plan ∈ (planAll unit lines groups).plans, s ∈ plan.left := by
  induction groups with
  | nil => cases h
  | cons g groups ih =>
      obtain ⟨index, group⟩ := g
      obtain ⟨plan, hplan⟩ := hplanned (index, group) List.mem_cons_self
      simp only [planAll, hplan] at h ⊢
      rcases List.mem_append.mp h with h | h
      · exact ⟨plan, List.mem_cons_self, h⟩
      · obtain ⟨other, hother, hleft⟩ := ih (fun g hg => hplanned g (List.mem_cons_of_mem _ hg)) h
        exact ⟨other, List.mem_cons_of_mem _ hother, hleft⟩

section Batch

variable (settings : FixSettings) (text : Text) (ds : List Diagnostic)

def relocated : Relocated := relocate settings (SourceLines.ofText text).lines (fixable ds)

def plansFor : Plans :=
  planAll settings.indentUnit (relocated settings text ds).lines
    (groupByLine (relocated settings text ds).pending)

def beforeEdits : Progress :=
  ⟨(relocated settings text ds).lines, (relocated settings text ds).applied,
    (relocated settings text ds).skipped ++ (plansFor settings text ds).skipped⟩

/-- A batch in which nothing fails: moves are allowed if there are any, each line is planned, and
each plan is carried out. -/
structure IsUnhindered : Prop where
  moves_allowed : moves ds ≠ [] → settings.relocatable.isSome
  planned : ∀ g ∈ groupByLine (relocated settings text ds).pending,
    ∃ plan, planLine settings.indentUnit (relocated settings text ds).lines g.1 g.2 = .ok plan
  allCarriedOut : AllCarriedOut settings.indentUnit (beforeEdits settings text ds)
    (bottomUp (plansFor settings text ds).plans)

end Batch

section Unhindered

variable {settings : FixSettings} {text : Text} {ds : List Diagnostic}

theorem length_filterMap_lineOrder (settings : FixSettings) (lines : List Text)
    (ds : List Diagnostic) :
    ((lineOrder settings lines ds).filterMap fun i => lines[i]?).length = lines.length := by
  have hperm := lineOrder_perm settings lines ds
  rw [filterMap_getElem?_of_perm hperm, List.length_map, hperm.length_eq, List.length_range]

theorem line_remap_range {order : List Nat} {n : Nat} (hperm : order.Perm (List.range n))
    {d : Diagnostic} (h : 1 ≤ d.line ∧ d.line ≤ n) :
    1 ≤ (Relocation.remap (order.map Int.ofNat) d).line ∧
      (Relocation.remap (order.map Int.ofNat) d).line ≤ n := by
  have hmem : (d.line - 1).toNat ∈ order := by
    rw [hperm.mem_iff, List.mem_range]
    omega
  obtain ⟨position, hposition⟩ := List.mem_iff_getElem?.mp hmem
  have hlt : position < n := by
    obtain ⟨hlt, -⟩ := List.getElem?_eq_some_iff.mp hposition
    rwa [hperm.length_eq, List.length_range] at hlt
  rw [Relocation.remap_of_getElem? (hperm.nodup_iff.mpr List.nodup_range) hposition (by omega)]
  simp only
  omega

theorem line_range_of_mem_relocated
    (hrange : ∀ d ∈ localFixes ds, 1 ≤ d.line ∧ d.line ≤ (SourceLines.ofText text).lines.length) :
    ∀ d ∈ (relocated settings text ds).pending,
      1 ≤ d.line ∧ d.line ≤ (relocated settings text ds).lines.length := by
  unfold relocated
  generalize (SourceLines.ofText text).lines = lines at hrange ⊢
  cases hmoves : (moves ds).isEmpty with
  | true =>
      rw [relocate_of_no_moves hmoves]
      exact hrange
  | false =>
      cases hsettings : settings.relocatable with
      | none =>
          rw [relocate_of_none hmoves hsettings]
          exact hrange
      | some pattern =>
          rw [relocate_of_some hmoves hsettings]
          intro d hd
          obtain ⟨e, he, rfl⟩ := List.mem_map.mp hd
          rw [length_filterMap_lineOrder]
          exact line_remap_range (lineOrder_perm settings lines ds) (hrange e he)

theorem lineAt?_of_line_range {lines : List Text} {d : Diagnostic}
    (h : 1 ≤ d.line ∧ d.line ≤ lines.length) :
    ∃ line, LineEdit.lineAt? lines (d.line - 1) = some line := by
  obtain ⟨i, hi⟩ := Int.eq_ofNat_of_zero_le (show 0 ≤ d.line - 1 by omega)
  rw [hi, LineEdit.lineAt?_natCast, List.getElem?_eq_getElem (by omega)]
  exact ⟨_, rfl⟩

/-- Where the unit can be computed with, moves are allowed and the local fixes are aimed at lines of
the text, nothing fails. -/
theorem isUnhindered_of_line_range (hunit : IsUsable settings.indentUnit)
    (hmoves : moves ds ≠ [] → settings.relocatable.isSome)
    (hrange : ∀ d ∈ localFixes ds, 1 ≤ d.line ∧ d.line ≤ (SourceLines.ofText text).lines.length) :
    IsUnhindered settings text ds := by
  refine ⟨hmoves, ?_, ?_⟩
  · intro g hg
    have hgrouping := isGrouping_groupByLine (relocated settings text ds).pending
    obtain ⟨d, hd, hline⟩ := (hgrouping.mem_indices g.1).mp (List.mem_map.mpr ⟨g, hg, rfl⟩)
    obtain ⟨line, hat⟩ := lineAt?_of_line_range (line_range_of_mem_relocated hrange d hd)
    exact planLine_of_isUsable hunit (hline ▸ hat) (group_ne_nil hg)
  · have hlines : (beforeEdits settings text ds).lines = (relocated settings text ds).lines := rfl
    refine allCarriedOut_of_ok (isBottomUp_planAll hlines _) fun plan hplan line hline => ?_
    obtain ⟨i, line', hget, hfor⟩ := exists_isPlanFor ((bottomUp_perm _).mem_iff.mp hplan)
    rw [hfor.index_eq, LineEdit.lineAt?_natCast, hget] at hline
    obtain rfl := Option.some.inj hline
    rw [hfor.newLines_eq]
    exact fixedLines_of_isUsable hunit line' _

namespace IsUnhindered

variable (h : IsUnhindered settings text ds)
include h

theorem relocated_eq :
    (relocated settings text ds).applied = moves ds ∧
      (relocated settings text ds).skipped = [] := by
  unfold relocated
  cases hmoves : (moves ds).isEmpty with
  | true =>
      rw [relocate_of_no_moves hmoves, List.isEmpty_iff.mp hmoves]
      exact ⟨rfl, rfl⟩
  | false =>
      obtain ⟨pattern, hpattern⟩ := Option.isSome_iff_exists.mp
        (h.moves_allowed (by simpa using hmoves))
      rw [relocate_of_some hmoves hpattern]
      exact ⟨rfl, rfl⟩

theorem skipped_eq :
    (applyFixes settings text ds).skipped = (plansFor settings text ds).skipped := by
  have hskipped : (applyFixes settings text ds).skipped = (beforeEdits settings text ds).skipped :=
    h.allCarriedOut.skipped_eq
  rw [hskipped, beforeEdits, h.relocated_eq.2, List.nil_append]

theorem applied_eq :
    (applyFixes settings text ds).applied =
      moves ds ++ (bottomUp (plansFor settings text ds).plans).flatMap (·.sources) := by
  have happlied : (applyFixes settings text ds).applied =
      (beforeEdits settings text ds).applied ++
        (bottomUp (plansFor settings text ds).plans).flatMap (·.sources) :=
    h.allCarriedOut.applied_eq
  rw [happlied, beforeEdits, h.relocated_eq.1]

/-- A local fix is applied exactly if it is carried out among the fixes of its line. -/
theorem mem_applied_iff {d : Diagnostic} :
    d ∈ (applyFixes settings text ds).applied ↔
      d ∈ moves ds ∨ ∃ (i : Nat) (line : Text), (relocated settings text ds).lines[i]? = some line ∧
        d ∈ carriedOut line (ofLine (relocated settings text ds).pending i) := by
  rw [h.applied_eq, List.mem_append, List.mem_flatMap]
  refine or_congr_right ?_
  constructor
  · rintro ⟨plan, hplan, hd⟩
    obtain ⟨i, line, hget, hfor⟩ := exists_isPlanFor ((bottomUp_perm _).mem_iff.mp hplan)
    exact ⟨i, line, hget, hfor.sources_eq ▸ hd⟩
  · rintro ⟨i, line, hget, hd⟩
    obtain ⟨hpending, hline⟩ := mem_ofLine.mp (mem_of_mem_carriedOut hd)
    have hgrouping := isGrouping_groupByLine (relocated settings text ds).pending
    obtain ⟨g, hg, hgi⟩ := List.mem_map.mp ((hgrouping.mem_indices i).mpr ⟨d, hpending, hline⟩)
    obtain ⟨plan, hplan⟩ := h.planned g hg
    have hat : LineEdit.lineAt? (relocated settings text ds).lines g.1 = some line := by
      rw [hgi, LineEdit.lineAt?_natCast, hget]
    have hfor := isPlanFor_of_planLine hat (group_ne_nil hg) hplan
    rw [hgrouping.group_eq g hg, hgi] at hfor
    exact ⟨plan, (bottomUp_perm _).mem_iff.mpr (mem_plans_planAll.mpr ⟨g, hg, hplan⟩),
      hfor.sources_eq ▸ hd⟩

theorem mem_applied_iff_of_no_moves (hmoves : moves ds = []) {d : Diagnostic} {i : Nat}
    (hi : d.line - 1 = i) :
    d ∈ (applyFixes settings text ds).applied ↔
      ∃ line, (SourceLines.ofText text).lines[i]? = some line ∧
        d ∈ carriedOut line (ofLine (fixable ds) i) := by
  have hempty : (moves ds).isEmpty = true := List.isEmpty_iff.mpr hmoves
  have hstart : relocated settings text ds =
      ⟨(SourceLines.ofText text).lines, fixable ds, [], []⟩ := by
    rw [relocated, relocate_of_no_moves hempty, localFixes_of_no_moves hempty]
  rw [h.mem_applied_iff, hmoves, hstart]
  constructor
  · rintro (hd | ⟨j, line, hget, hd⟩)
    · cases hd
    · obtain ⟨-, hline⟩ := mem_ofLine.mp (mem_of_mem_carriedOut hd)
      obtain rfl : j = i := by omega
      exact ⟨line, hget, hd⟩
  · rintro ⟨line, hget, hd⟩
    exact Or.inr ⟨i, line, hget, hd⟩

/-- What is skipped stands back behind another fix on the same line. -/
theorem reason_of_mem_skipped {s : SkippedFix} (hs : s ∈ (applyFixes settings text ds).skipped) :
    s.reason = "overlaps an earlier fix on the same line".toList ∨
      s.reason = "superseded by a deletion on the same line".toList := by
  rw [h.skipped_eq] at hs
  obtain ⟨plan, hplan, hleft⟩ := mem_skipped_planAll h.planned hs
  obtain ⟨i, line, -, hfor⟩ := exists_isPlanFor hplan
  rw [hfor.left_eq] at hleft
  exact reason_of_mem_leftOut hleft

end IsUnhindered

end Unhindered

end Fixing

end LineLint
