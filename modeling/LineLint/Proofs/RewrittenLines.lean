import LineLint.Proofs.RepeatedFix
import LineLint.Proofs.SoundRules
import LineLint.Proofs.UnbrokenLines

/-!
# Lines that are rewritten in place

A batch may hold at most one fix for each line, which puts a whole new line in its place. If the
indentation of the new lines counts and fills whole units, then all of them are put in as they
stand, nothing is skipped, and the text that comes out is read as the new lines.
-/

namespace LineLint

namespace SourceLines

/-- Without a newline at the end, a text ends within its last line. -/
theorem ne_nil_of_getLast?_lines {t last : Text} (hreturn : '\r' ∉ t)
    (htrailing : (ofText t).trailingNewline = false) (h : (ofText t).lines.getLast? = some last) :
    last ≠ [] := by
  obtain ⟨closed, part, hsplit⟩ := Text.exists_splitOn_eq '\n' t
  have hlines := lines_ofText hsplit
  by_cases hpart : part = []
  · have hclosed : closed = [] := by
      by_contra hne
      rw [(trailingNewline_ofText hsplit).mpr ⟨hne, hpart⟩] at htrailing
      cases htrailing
    rw [hlines, if_pos hpart, hclosed] at h
    cases h
  · have hmem : part ∈ Text.splitOn '\n' t := hsplit ▸ List.mem_append_right closed (by simp)
    have hfree := (Text.isUnbroken_of_mem_splitOn hreturn hmem).carriageReturn
    rw [hlines, if_neg hpart, List.getLast?_concat,
      dropReturn_eq_self fun hlast => hfree (List.mem_of_getLast? hlast)] at h
    obtain rfl := Option.some.inj h
    exact hpart

/-- Unbroken lines in the place of those of a text are read back, if the last one is not empty where
no newline stands behind it. -/
theorem lines_ofText_renderWith_of_isUnbroken {t : Text} {lines : List Text}
    (hlines : ∀ line ∈ lines, line.IsUnbroken)
    (hlast : (ofText t).trailingNewline = false → ∀ last, lines.getLast? = some last → last ≠ []) :
    (ofText ((ofText t).renderWith lines)).lines = lines := by
  have hend : ∀ line ∈ lines, line.getLast? ≠ some '\r' := fun line hline hreturn =>
    (hlines line hline).carriageReturn (List.mem_of_getLast? hreturn)
  rw [lines_ofText_renderWith_of_getLast?_ne fun line hline =>
    ⟨(hlines line hline).newline, hend line hline⟩]
  cases htrailing : (ofText t).trailingNewline with
  | true => rfl
  | false =>
      rw [if_neg Bool.false_ne_true]
      exact (openEnded_eq_self_iff lines).mpr fun last hget =>
        ⟨hlast htrailing last hget, hend last (List.mem_of_getLast? hget)⟩

end SourceLines

namespace Fixing

open Indentation

/-- A line that can be put in the place of another one as it stands. -/
structure IsWholeLine (unit : Int) (line : Text) : Prop where
  ne_nil : line ≠ []
  unbroken : line.IsUnbroken
  wholeUnits : IsWholeUnits unit line.indentation

structure PutsLine (d : Diagnostic) (index : Nat) (new : Text) : Prop where
  line_eq : d.line = index + 1
  replacement_eq : d.replacement = some new
  stays : Spec.relocates d.code = false
  setsIndent : d.setsIndent = true

/-- Fixes that put new lines in the place of some of the lines from an index on, in their order. -/
inductive Rewrites (unit : Int) : Nat → List Text → List Diagnostic → List Text → Prop
  | nil (index : Nat) : Rewrites unit index [] [] []
  | keep {index : Nat} {line : Text} {lines lines' : List Text} {ds : List Diagnostic}
      (h : Rewrites unit (index + 1) lines ds lines') :
      Rewrites unit index (line :: lines) ds (line :: lines')
  | put {index : Nat} {line line' : Text} {lines lines' : List Text} {d : Diagnostic}
      {ds : List Diagnostic} (hput : PutsLine d index line') (hwhole : IsWholeLine unit line')
      (h : Rewrites unit (index + 1) lines ds lines') :
      Rewrites unit index (line :: lines) (d :: ds) (line' :: lines')

variable {unit : Int} {index : Nat} {line new : Text} {lines lines' : List Text} {d : Diagnostic}
  {ds : List Diagnostic}

/-- A finding that has a whole line for the one it names is reported as a fix that puts it in, if
the category of its reports is one that sets the indentation. -/
theorem exists_putsLine_report (spec : Spec) (f : Finding) (hline : lines[f.index]? = some line)
    (hfills : f.Fills spec) (hnew : f.replacement = some new) (hwhole : IsWholeLine unit new)
    (hstays : Spec.relocates spec.code = false)
    (hsets : Text.fold spec.category.toList = "formatting".toList) :
    ∃ d, spec.report lines f = .ok d ∧ PutsLine d f.index new := by
  have hne : f.replacement ≠ some [] := fun hnil =>
    hwhole.ne_nil (Option.some.inj (hnew.symm.trans hnil))
  obtain ⟨d, hreport⟩ := (Finding.isSound_of_ne_nil hline hfills hne).exists_report
  obtain ⟨hat, -, hcode, hcategory, hreplacement⟩ := Spec.report_eq_ok hreport
  refine ⟨d, hreport, hat, hreplacement.trans hnew, by rw [hcode, hstays], ?_⟩
  rw [Diagnostic.setsIndent, hcategory, hsets]
  decide

section Put

variable (h : PutsLine d index new)
include h

theorem PutsLine.hasFix : d.hasFix = true := by
  rw [Diagnostic.hasFix, h.replacement_eq, Option.isSome_some]

theorem PutsLine.newText_eq : d.newText = new := by
  rw [Diagnostic.newText, h.replacement_eq, Option.getD_some]

theorem PutsLine.isDeletion_eq (hwhole : IsWholeLine unit new) : d.isDeletion = false := by
  have hne := hwhole.ne_nil
  rw [Diagnostic.isDeletion, h.replacement_eq]
  simpa using hne

theorem PutsLine.outcome_eq (hunit : 1 ≤ unit) (htab : isTabWidth unit = true)
    (hwhole : IsWholeLine unit new) (line : Text) : outcome unit line [d] = [new] := by
  obtain ⟨put, hput, hkept⟩ := outcome_single_of_setsIndent hunit line (h.isDeletion_eq hwhole)
    (h.newText_eq.symm ▸ hwhole.unbroken.newline) h.setsIndent
  rw [h.newText_eq] at hkept
  rw [hput, hkept.mpr (Or.inl ⟨htab, hwhole.wholeUnits⟩)]

end Put

section Lines

variable (h : Rewrites unit index lines ds lines')
include h

theorem Rewrites.length_eq : lines'.length = lines.length := by
  induction h with
  | nil index => rfl
  | keep _ ih => rw [List.length_cons, List.length_cons, ih]
  | put _ _ _ ih => rw [List.length_cons, List.length_cons, ih]

theorem Rewrites.exists_putsLine (hd : d ∈ ds) :
    ∃ i new, index ≤ i ∧ i < index + lines.length ∧ PutsLine d i new := by
  induction h with
  | nil index => cases hd
  | keep _ ih =>
      obtain ⟨i, new, hle, hlt, hput⟩ := ih hd
      exact ⟨i, new, by omega, by rw [List.length_cons]; omega, hput⟩
  | put hput _ _ ih =>
      rcases List.mem_cons.mp hd with rfl | hd
      · exact ⟨_, _, Nat.le_refl _, by rw [List.length_cons]; omega, hput⟩
      · obtain ⟨i, new, hle, hlt, hput⟩ := ih hd
        exact ⟨i, new, by omega, by rw [List.length_cons]; omega, hput⟩

theorem Rewrites.ofLine_eq_nil {i : Nat} (hi : i < index) : ofLine ds i = [] := by
  apply List.filter_eq_nil_iff.mpr
  intro d hd
  obtain ⟨j, new, hle, -, hput⟩ := h.exists_putsLine hd
  have hline := hput.line_eq
  simp only [beq_iff_eq]
  omega

theorem Rewrites.length_ofLine_le (i : Nat) : (ofLine ds i).length ≤ 1 := by
  induction h with
  | nil index => exact Nat.zero_le 1
  | keep _ ih => exact ih
  | @put index line line' lines lines' d ds hput hwhole h ih =>
      have hline := hput.line_eq
      rw [← List.singleton_append, ofLine_append]
      by_cases hi : i = index
      · rw [hi, h.ofLine_eq_nil (Nat.lt_succ_self index), List.append_nil]
        exact List.length_filter_le _ _
      · rw [ofLine_singleton_of_ne (by omega), List.nil_append]
        exact ih

theorem Rewrites.flatten_outcomes (hunit : 1 ≤ unit) (htab : isTabWidth unit = true) :
    (lines.mapIdx fun k line => outcome unit line (ofLine ds (index + k : Nat))).flatten =
      lines' := by
  induction h with
  | nil index => rfl
  | @keep index line lines lines' ds h ih =>
      have hrest : (lines.mapIdx fun k line =>
          outcome unit line (ofLine ds (index + (k + 1) : Nat))).flatten = lines' := by
        simpa only [Nat.add_assoc, Nat.add_comm 1] using ih
      rw [List.mapIdx_cons, List.flatten_cons, hrest, Nat.add_zero,
        h.ofLine_eq_nil (Nat.lt_succ_self index), outcome_nil]
      rfl
  | @put index line line' lines lines' d ds hput hwhole h ih =>
      have hline := hput.line_eq
      have hown : ofLine (d :: ds) (index + 0 : Nat) = [d] := by
        rw [← List.singleton_append, ofLine_append, Nat.add_zero,
          h.ofLine_eq_nil (Nat.lt_succ_self index), List.append_nil]
        simp [ofLine, hline]
      have hother (k : Nat) : ofLine (d :: ds) (index + (k + 1) : Nat) =
          ofLine ds (index + (k + 1) : Nat) := by
        rw [← List.singleton_append, ofLine_append, ofLine_singleton_of_ne (by omega)]
        rfl
      have hrest : (lines.mapIdx fun k line =>
          outcome unit line (ofLine (d :: ds) (index + (k + 1) : Nat))).flatten = lines' := by
        simp only [hother]
        simpa only [Nat.add_assoc, Nat.add_comm 1] using ih
      rw [List.mapIdx_cons, List.flatten_cons, hrest, hown, hput.outcome_eq hunit htab hwhole]
      rfl

theorem Rewrites.getElem?_eq {i : Nat} (hi : ∀ d ∈ ds, d.line ≠ (index + i : Nat) + 1) :
    lines'[i]? = lines[i]? := by
  induction h generalizing i with
  | nil index => rfl
  | keep _ ih =>
      cases i with
      | zero => rfl
      | succ i => exact ih fun d hd => by have := hi d hd; omega
  | put hput _ _ ih =>
      obtain ⟨hfirst, hrest⟩ := List.forall_mem_cons.mp hi
      have hline := hput.line_eq
      cases i with
      | zero => exact absurd hline hfirst
      | succ i => exact ih fun d hd => by have := hrest d hd; omega

theorem Rewrites.getElem?_or_isWholeLine {i : Nat} (hnew : lines'[i]? = some new) :
    lines[i]? = some new ∨ IsWholeLine unit new := by
  induction h generalizing i with
  | nil index => cases hnew
  | keep _ ih =>
      cases i with
      | zero => exact Or.inl hnew
      | succ i => exact ih hnew
  | put _ hwhole _ ih =>
      cases i with
      | zero =>
          obtain rfl := Option.some.inj hnew
          exact Or.inr hwhole
      | succ i => exact ih hnew

end Lines

section Batch

theorem leftOut_of_length_le (line : Text) {group : List Diagnostic} (h : group.length ≤ 1) :
    leftOut line group = [] := by
  match group with
  | [] => rfl
  | [d] =>
      rw [leftOut, clashing_single]
      cases hdelete : d.isDeletion with
      | true => simp [hdelete, skipAll]
      | false => simp [hdelete, skipAll]
  | d :: e :: rest => simp at h

theorem lines_applyFixes_nil (settings : FixSettings) {text : Text} (hreturn : '\r' ∉ text) :
    (SourceLines.ofText (applyFixes settings text []).text).lines =
      (SourceLines.ofText text).lines := by
  rw [applyFixes_nil]
  exact SourceLines.lines_ofText_renderWith_of_isUnbroken
    (SourceLines.isUnbroken_of_mem_lines hreturn) fun htrailing _ hlast =>
      SourceLines.ne_nil_of_getLast?_lines hreturn htrailing hlast

variable {settings : FixSettings} {text : Text} (hunit : 1 ≤ settings.indentUnit)
  (htab : isTabWidth settings.indentUnit = true)
  (h : Rewrites settings.indentUnit 0 (SourceLines.ofText text).lines ds lines')
include h

theorem Rewrites.fixable_eq : fixable ds = ds := by
  apply List.filter_eq_self.mpr
  intro d hd
  obtain ⟨_, _, -, -, hput⟩ := h.exists_putsLine hd
  exact hput.hasFix

theorem Rewrites.moves_eq_nil : moves ds = [] := by
  apply List.filter_eq_nil_iff.mpr
  intro d hd
  rw [h.fixable_eq] at hd
  obtain ⟨_, _, -, -, hput⟩ := h.exists_putsLine hd
  simp [hput.stays]

theorem Rewrites.localFixes_eq : localFixes ds = ds := by
  rw [localFixes_of_no_moves (List.isEmpty_iff.mpr h.moves_eq_nil), h.fixable_eq]

include hunit htab

theorem Rewrites.text_eq :
    (applyFixes settings text ds).text = (SourceLines.ofText text).renderWith lines' := by
  have hlines := h.flatten_outcomes hunit htab
  simp only [Nat.zero_add] at hlines
  rw [applyFixes_text]
  simp only [relocate_of_no_moves (List.isEmpty_iff.mpr h.moves_eq_nil), h.localFixes_eq, hlines]

theorem Rewrites.skipped_eq_nil : (applyFixes settings text ds).skipped = [] := by
  have husable : IsUsable settings.indentUnit := ⟨by omega, htab⟩
  have hfree : IsUnhindered settings text ds := by
    apply isUnhindered_of_line_range husable (fun hmoves => absurd h.moves_eq_nil hmoves)
    intro d hd
    rw [h.localFixes_eq] at hd
    obtain ⟨i, new, -, hlt, hput⟩ := h.exists_putsLine hd
    have hline := hput.line_eq
    omega
  have hpending : (relocated settings text ds).pending = ds := by
    rw [relocated, relocate_of_no_moves (List.isEmpty_iff.mpr h.moves_eq_nil), h.localFixes_eq]
  apply List.eq_nil_iff_forall_not_mem.mpr
  intro s hs
  rw [hfree.skipped_eq] at hs
  obtain ⟨plan, hplan, hleft⟩ := mem_skipped_planAll hfree.planned hs
  obtain ⟨i, line, -, hfor⟩ := exists_isPlanFor hplan
  rw [hfor.left_eq, hpending, leftOut_of_length_le line (h.length_ofLine_le i)] at hleft
  cases hleft

/-- The text that comes out is read as the new lines. -/
theorem Rewrites.lines_eq (hreturn : '\r' ∉ text) :
    (SourceLines.ofText (applyFixes settings text ds).text).lines = lines' := by
  have hunbroken : ∀ new ∈ lines', new.IsUnbroken := by
    intro new hnew
    obtain ⟨i, hi⟩ := List.mem_iff_getElem?.mp hnew
    rcases h.getElem?_or_isWholeLine hi with hold | hwhole
    · exact SourceLines.isUnbroken_of_mem_lines hreturn new (List.mem_of_getElem? hold)
    · exact hwhole.unbroken
  have hlast : (SourceLines.ofText text).trailingNewline = false →
      ∀ last, lines'.getLast? = some last → last ≠ [] := by
    intro htrailing last hget
    rw [List.getLast?_eq_getElem?, h.length_eq] at hget
    rcases h.getElem?_or_isWholeLine hget with hold | hwhole
    · rw [← List.getLast?_eq_getElem?] at hold
      exact SourceLines.ne_nil_of_getLast?_lines hreturn htrailing hold
    · exact hwhole.ne_nil
  rw [h.text_eq hunit htab]
  exact SourceLines.lines_ofText_renderWith_of_isUnbroken hunbroken hlast

end Batch

end Fixing

end LineLint
