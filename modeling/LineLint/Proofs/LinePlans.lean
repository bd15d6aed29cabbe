import LineLint.Proofs.Acceptance
import LineLint.Proofs.Computation
import LineLint.Proofs.LineGroups
import LineLint.Proofs.TextSplit
import Mathlib.Data.List.TakeWhile

/-!
# What the fixes of one line make of it

`fixedLines` says, from a line, its diagnostics and the indent unit alone, which lines come out. A
plan that is made for a line puts just these lines in its place, and it carries out or leaves out
each diagnostic of the line once.
-/

namespace LineLint

namespace Indentation

theorem indentation_subset_blanks {line : Text} {c : Char} (h : c ∈ line.indentation) :
    c = ' ' ∨ c = '\t' := by
  have hp : isSpaceOrTab c = true := List.mem_takeWhile_imp h
  simpa [isSpaceOrTab] using hp

theorem newline_not_mem_indentation (line : Text) : '\n' ∉ line.indentation := by
  intro h
  rcases indentation_subset_blanks h with h | h <;> cases h

theorem newline_not_mem_blockLine {unit nested : Int} {base line : Text} (hbase : '\n' ∉ base)
    (hline : '\n' ∉ line) : '\n' ∉ blockLine unit base nested line := by
  unfold blockLine
  split_ifs
  · simp
  · simp [hbase, hline]
  · simp only [Text.spaces, List.mem_append, List.mem_replicate, not_or]
    refine ⟨by simp, fun h => hline ?_⟩
    exact (List.dropWhile_suffix isSpaceOrTab).subset h

end Indentation

namespace Fixing

open Indentation

def replacedLines (unit : Int) (line : Text) (d : Diagnostic) : Except Fault (List Text) :=
  if d.newText.contains '\n' then reindentBlock unit line (LineEdit.blockLines d.newText)
  else (reindentLine unit line d.newText d.setsIndent).map ([·])

def composable (line : Text) (group : List Diagnostic) : List Diagnostic :=
  entriesOff (composeRevisions line (group.map (·.newText))).2 0 group

def clashing (line : Text) (group : List Diagnostic) : List Diagnostic :=
  (composeRevisions line (group.map (·.newText))).2.filterMap fun position => group[position]?

theorem composable_append_clashing_perm (line : Text) (group : List Diagnostic) :
    (composable line group ++ clashing line group).Perm group := by
  apply entriesOff_append_perm
  have hsub := Composition.rejected_sublist_range line.dropIndentation (group.map (·.newText))
  rwa [List.length_map] at hsub

theorem length_mem_rejected_iff {line : Text} {group before after : List Diagnostic}
    {d : Diagnostic} (h : group = before ++ d :: after) :
    before.length ∈ (composeRevisions line (group.map (·.newText))).2 ↔
      (Composition.ofRevisions line.dropIndentation (before.map (·.newText))).clashes
        line.dropIndentation d.newText = true := by
  have hpos := Composition.length_mem_rejected_iff line.dropIndentation (before.map (·.newText))
    (after.map (·.newText)) d.newText
  rw [List.length_map] at hpos
  rw [h, List.map_append, List.map_cons]
  exact hpos

/-- A fix is composed with the others of its line exactly if it does not clash with what is accepted
of those before its first occurrence. -/
theorem mem_composable_iff {line : Text} {group : List Diagnostic} {d : Diagnostic}
    (hd : d ∈ group) :
    d ∈ composable line group ↔
      (Composition.ofRevisions line.dropIndentation
        ((group.takeWhile (· != d)).map (·.newText))).clashes line.dropIndentation d.newText =
        false := by
  obtain ⟨before, after, rfl, hbefore⟩ := List.eq_append_cons_of_mem hd
  rw [takeWhile_bne_append hbefore after, composable, mem_entriesOff]
  constructor
  · rintro ⟨i, hget, hnot⟩
    -- A later occurrence meets at least what the first one meets.
    obtain ⟨between, rest, hsplit, rfl⟩ := exists_append_of_getElem?_eq_some hbefore hget
    rw [length_mem_rejected_iff hsplit, List.map_append] at hnot
    by_contra hclash
    exact hnot (Composition.clashes_ofRevisions_append (by simpa using hclash) _)
  · intro hclash
    refine ⟨before.length, by simp, fun hmem => ?_⟩
    rw [(length_mem_rejected_iff rfl).mp hmem] at hclash
    cases hclash

def composedLines (unit : Int) (line : Text) (group : List Diagnostic) :
    Except Fault (List Text) :=
  let merged := (composeRevisions line (group.map (·.newText))).1
  let chosen := chosenIndent? line.indentation (composable line group)
  let indent := chosen.getD line.indentation
  if merged.contains '\n' then
    (reindentBlock unit indent (Text.splitOn '\n' merged)).map
      (·.map (Text.dropRightWhile (· == '\r')))
  else (reindentLine unit line (indent ++ merged) chosen.isSome).map ([·])

def fixedLines (unit : Int) (line : Text) (group : List Diagnostic) : Except Fault (List Text) :=
  if group.any (·.isDeletion) then .ok []
  else match group with
    | [] => .ok [line]
    | [d] => replacedLines unit line d
    | _ => composedLines unit line group

/-- The lines that come out for a line: the line itself if its fixes fail. -/
def outcome (unit : Int) (line : Text) (group : List Diagnostic) : List Text :=
  match fixedLines unit line group with
  | .ok new => new
  | .error _ => [line]

@[simp] theorem outcome_nil (unit : Int) (line : Text) : outcome unit line [] = [line] := rfl

theorem outcome_of_ok {unit : Int} {line : Text} {group : List Diagnostic} {new : List Text}
    (h : fixedLines unit line group = .ok new) : outcome unit line group = new := by
  simp only [outcome, h]

theorem outcome_of_error {unit : Int} {line : Text} {group : List Diagnostic} {f : Fault}
    (h : fixedLines unit line group = .error f) : outcome unit line group = [line] := by
  simp only [outcome, h]

@[simp] theorem map_diagnostic_skipAll (reason : Text) (ds : List Diagnostic) :
    (skipAll reason ds).map (·.diagnostic) = ds := by
  simp [skipAll, Function.comp_def]

theorem reindentBlock_eq_ok {unit : Int} {line : Text} {lines block : List Text}
    (h : reindentBlock unit line lines = .ok block) :
    ∃ nested, block = lines.map (blockLine unit line.indentation nested) := by
  obtain ⟨nested, -, hblock⟩ := bind_eq_ok_iff.mp h
  obtain ⟨depth, -, heq⟩ := bind_eq_ok_iff.mp hblock
  exact ⟨depth, (Except.ok.inj heq).symm⟩

theorem blockLines_joinWith {unit : Int} {indent merged : Text} {block : List Text}
    (h : reindentBlock unit indent (Text.splitOn '\n' merged) = .ok block) :
    LineEdit.blockLines (Text.joinWith ['\n'] block) =
      block.map (Text.dropRightWhile (· == '\r')) := by
  obtain ⟨nested, rfl⟩ := reindentBlock_eq_ok h
  rw [LineEdit.blockLines, Text.splitOn_joinWith]
  · simpa using Text.splitOn_ne_nil '\n' merged
  · intro part hpart
    obtain ⟨l, hl, rfl⟩ := List.mem_map.mp hpart
    exact newline_not_mem_blockLine (newline_not_mem_indentation indent)
      (Text.not_mem_of_mem_splitOn hl)

theorem rejected_single (base revision : Text) :
    (Composition.ofRevisions base [revision]).rejected = [] := by
  have hnone : Composition.clashes base {} revision = false := by simp [Composition.clashes]
  rw [Composition.ofRevisions, Composition.acceptFrom, Composition.acceptFrom,
    Composition.accept_of_not_clashes hnone]

@[simp] theorem composable_single (line : Text) (d : Diagnostic) : composable line [d] = [d] := by
  have hnone : (composeRevisions line [d.newText]).2 = [] := rejected_single _ _
  simp [composable, entriesOff, hnone]

@[simp] theorem clashing_single (line : Text) (d : Diagnostic) : clashing line [d] = [] := by
  have hnone : (composeRevisions line [d.newText]).2 = [] := rejected_single _ _
  simp [clashing, hnone]

/-- The diagnostics of a line that are carried out: its deletions if it has any. -/
def carriedOut (line : Text) (group : List Diagnostic) : List Diagnostic :=
  if group.any (·.isDeletion) then group.filter (·.isDeletion) else composable line group

def leftOut (line : Text) (group : List Diagnostic) : List SkippedFix :=
  if group.any (·.isDeletion) then
    skipAll "superseded by a deletion on the same line".toList
      (group.filter fun d => !d.isDeletion)
  else skipAll "overlaps an earlier fix on the same line".toList (clashing line group)

theorem carriedOut_append_leftOut_perm (line : Text) (group : List Diagnostic) :
    (carriedOut line group ++ (leftOut line group).map (·.diagnostic)).Perm group := by
  unfold carriedOut leftOut
  split_ifs
  · rw [map_diagnostic_skipAll]
    exact List.filter_append_perm _ _
  · rw [map_diagnostic_skipAll]
    exact composable_append_clashing_perm line group

theorem mem_of_mem_carriedOut {line : Text} {group : List Diagnostic} {d : Diagnostic}
    (h : d ∈ carriedOut line group) : d ∈ group :=
  (carriedOut_append_leftOut_perm line group).subset (List.mem_append_left _ h)

/-- A plan for one line puts the fixed lines in its place, and it accounts for each diagnostic of
the line. -/
structure IsPlanFor (unit : Int) (index : Int) (line : Text) (group : List Diagnostic)
    (plan : LinePlan) : Prop where
  index_eq : plan.edit.index = index
  newLines_eq : plan.edit.newLines unit line = fixedLines unit line group
  sources_eq : plan.sources = carriedOut line group
  left_eq : plan.left = leftOut line group

theorem IsPlanFor.perm {unit index : Int} {line : Text} {group : List Diagnostic}
    {plan : LinePlan} (h : IsPlanFor unit index line group plan) :
    (plan.sources ++ plan.left.map (·.diagnostic)).Perm group := by
  rw [h.sources_eq, h.left_eq]
  exact carriedOut_append_leftOut_perm line group

theorem newLines_planSingle (unit index : Int) (line : Text) (d : Diagnostic) :
    (planSingle index d).edit.newLines unit line = replacedLines unit line d := by
  unfold planSingle replacedLines
  split_ifs <;> rfl

def composedEdit (unit index : Int) (line : Text) (group : List Diagnostic) :
    Except Fault LineEdit :=
  let merged := (composeRevisions line (group.map (·.newText))).1
  let chosen := chosenIndent? line.indentation (composable line group)
  let indent := chosen.getD line.indentation
  if merged.contains '\n' then
    (reindentBlock unit indent (Text.splitOn '\n' merged)).map fun block =>
      LineEdit.insertBlock index (Text.joinWith ['\n'] block) true
  else .ok (LineEdit.replace index (indent ++ merged) chosen.isSome)

theorem planSeveral_eq (unit index : Int) (line : Text) (group : List Diagnostic) :
    planSeveral unit index line group = (composedEdit unit index line group).map fun edit =>
      ⟨edit, composable line group,
        skipAll "overlaps an earlier fix on the same line".toList (clashing line group)⟩ := by
  unfold planSeveral composedEdit
  simp only [composable, clashing, entriesOff]
  split_ifs with hn
  · cases reindentBlock unit _ _ <;> rfl
  · rfl

theorem newLines_of_composedEdit {unit index : Int} {line : Text} {group : List Diagnostic}
    {edit : LineEdit} (h : composedEdit unit index line group = .ok edit) :
    edit.index = index ∧ edit.newLines unit line = composedLines unit line group := by
  unfold composedEdit at h
  unfold composedLines
  simp only at h ⊢
  split_ifs at h ⊢ with hn
  · obtain ⟨block, hblock, rfl⟩ := map_eq_ok_iff.mp h
    refine ⟨rfl, ?_⟩
    rw [hblock]
    exact congrArg Except.ok (blockLines_joinWith hblock)
  · cases h
    exact ⟨rfl, rfl⟩

theorem composedLines_of_composedEdit_error {unit index : Int} {line : Text}
    {group : List Diagnostic} {f : Fault} (h : composedEdit unit index line group = .error f) :
    composedLines unit line group = .error f := by
  unfold composedEdit at h
  unfold composedLines
  simp only at h ⊢
  split_ifs at h ⊢ with hn
  exact map_eq_error_iff.mpr (map_eq_error_iff.mp h)

section PlanLine

variable {unit index : Int} {lines : List Text} {line : Text} {group rest : List Diagnostic}
  {d e : Diagnostic}

theorem fixedLines_of_deletion (h : group.any (·.isDeletion) = true) :
    fixedLines unit line group = .ok [] :=
  if_pos h

theorem fixedLines_single (h : d.isDeletion = false) :
    fixedLines unit line [d] = replacedLines unit line d :=
  if_neg (by simp [h])

theorem fixedLines_several (h : (d :: e :: rest).any (·.isDeletion) = false) :
    fixedLines unit line (d :: e :: rest) = composedLines unit line (d :: e :: rest) :=
  if_neg (by rw [h]; decide)

theorem planLine_of_deletion (hline : LineEdit.lineAt? lines index = some line)
    (h : group.any (·.isDeletion) = true) :
    planLine unit lines index group =
      .ok ⟨LineEdit.delete index, group.filter (·.isDeletion),
        skipAll "superseded by a deletion on the same line".toList
          (group.filter fun d => !d.isDeletion)⟩ := by
  have hfilter : (group.filter (·.isDeletion)).isEmpty = false := by simpa using h
  simp only [planLine, hline, hfilter, Bool.not_false, if_true]

theorem planLine_single (hline : LineEdit.lineAt? lines index = some line)
    (h : d.isDeletion = false) : planLine unit lines index [d] = .ok (planSingle index d) := by
  simp [planLine, hline, h]

theorem planLine_several (hline : LineEdit.lineAt? lines index = some line)
    (h : (d :: e :: rest).any (·.isDeletion) = false) :
    planLine unit lines index (d :: e :: rest) =
      (composedEdit unit index line (d :: e :: rest)).map fun edit =>
        ⟨edit, composable line (d :: e :: rest),
          skipAll "overlaps an earlier fix on the same line".toList
            (clashing line (d :: e :: rest))⟩ := by
  have hfilter : ((d :: e :: rest).filter (·.isDeletion)).isEmpty = true := by simpa using h
  simp only [planLine, hline, hfilter, Bool.not_true, Bool.false_eq_true, if_false]
  exact planSeveral_eq unit index line _

theorem isPlanFor_of_planLine {plan : LinePlan}
    (hline : LineEdit.lineAt? lines index = some line) (hne : group ≠ [])
    (h : planLine unit lines index group = .ok plan) : IsPlanFor unit index line group plan := by
  cases hdel : group.any (·.isDeletion) with
  | true =>
      rw [planLine_of_deletion hline hdel] at h
      cases h
      exact ⟨rfl, (fixedLines_of_deletion hdel).symm, (if_pos hdel).symm, (if_pos hdel).symm⟩
  | false =>
      have hcarried : carriedOut line group = composable line group := if_neg (by simp [hdel])
      have hleft : leftOut line group =
          skipAll "overlaps an earlier fix on the same line".toList (clashing line group) :=
        if_neg (by simp [hdel])
      match group, hne with
      | [d], _ =>
          have hd : d.isDeletion = false := by simpa using hdel
          rw [planLine_single hline hd] at h
          cases h
          refine ⟨?_, ?_, ?_, ?_⟩
          · unfold planSingle
            split_ifs <;> rfl
          · rw [newLines_planSingle, fixedLines_single hd]
          · rw [hcarried, composable_single]
            rfl
          · rw [hleft, clashing_single]
            rfl
      | d :: e :: rest, _ =>
          rw [planLine_several hline hdel] at h
          obtain ⟨edit, hedit, rfl⟩ := map_eq_ok_iff.mp h
          obtain ⟨hindex, hlines⟩ := newLines_of_composedEdit hedit
          exact ⟨hindex, hlines.trans (fixedLines_several hdel).symm, hcarried.symm, hleft.symm⟩

theorem fixedLines_error_of_planLine {f : Fault}
    (hline : LineEdit.lineAt? lines index = some line) (hne : group ≠ [])
    (h : planLine unit lines index group = .error f) : fixedLines unit line group = .error f := by
  cases hdel : group.any (·.isDeletion) with
  | true =>
      rw [planLine_of_deletion hline hdel] at h
      cases h
  | false =>
      match group, hne with
      | [d], _ =>
          rw [planLine_single hline (by simpa using hdel)] at h
          cases h
      | d :: e :: rest, _ =>
          rw [planLine_several hline hdel] at h
          rw [fixedLines_several hdel]
          exact composedLines_of_composedEdit_error (map_eq_error_iff.mp h)

end PlanLine

end Fixing

end LineLint
