import LineLint.Proofs.AcceptedHunks
import LineLint.Proofs.LineRoundTrip
import LineLint.Proofs.SimultaneousFixes
import LineLint.Proofs.TextCharacters

/-!
# A batch leaves no line breaks inside lines

Fixes with newlines are put in as several lines, and composed fixes are made of the characters of
the line and of its fixes. The lines that a batch leaves therefore have no newline in them, and no
carriage return either if none came with the lines or the fixes.
-/

namespace LineLint

namespace Hunk

theorem text_subset_of_mem_betweenFrom {fuel offset : Nat} {a b : Text} {h : Hunk}
    (hm : h ∈ betweenFrom fuel offset a b) : h.text ⊆ b := by
  induction fuel generalizing offset a b with
  | zero =>
      rw [betweenFrom] at hm
      split_ifs at hm
      · cases hm
      · exact List.mem_singleton.mp hm ▸ List.Subset.refl b
  | succ fuel ih =>
      simp only [betweenFrom] at hm
      split_ifs at hm
      · cases hm
      · exact List.mem_singleton.mp hm ▸ List.Subset.refl b
      · rcases List.mem_append.mp hm with hm | hm
        · exact List.Subset.trans (ih hm) (List.take_subset ..)
        · exact List.Subset.trans (ih hm) (List.drop_subset ..)

theorem text_subset_of_mem_between {a b : Text} {h : Hunk} (hm : h ∈ between a b) : h.text ⊆ b :=
  text_subset_of_mem_betweenFrom hm

end Hunk

section Composed

variable {c : Char}

theorem Composition.not_mem_spell {base : Text} {hunks : List Hunk} (hbase : c ∉ base)
    (hhunks : ∀ h ∈ hunks, c ∉ h.text) (cursor : Nat) : c ∉ spell base cursor hunks := by
  induction hunks generalizing cursor with
  | nil => exact Text.not_mem_drop hbase cursor
  | cons h hunks ih =>
      obtain ⟨hh, hhunks⟩ := List.forall_mem_cons.mp hhunks
      refine List.not_mem_append (List.not_mem_append ?_ hh) (ih hhunks _)
      split_ifs <;> simp [hbase]

theorem not_mem_composeRevisions {line : Text} {revisions : List Text} (hline : c ∉ line)
    (hrevisions : ∀ r ∈ revisions, c ∉ r) : c ∉ (composeRevisions line revisions).1 := by
  refine Composition.not_mem_spell (Text.not_mem_dropIndentation hline) (fun h hh hc => ?_) 0
  have haccepted := List.mem_of_mem_filter ((List.mergeSort_perm _ _).mem_iff.mp hh)
  rw [Composition.accepted_ofRevisions, Composition.mem_carriedHunks_iff] at haccepted
  obtain ⟨j, r, hr, -, hbetween⟩ := haccepted
  exact Text.not_mem_dropIndentation (hrevisions r (List.mem_of_getElem? hr))
    (Hunk.text_subset_of_mem_between hbetween hc)

namespace Indentation

theorem not_mem_reindentLine {unit : Int} {line new result : Text} {ownIndent : Bool}
    (hspace : c ≠ ' ') (hline : c ∉ line) (hnew : c ∉ new)
    (h : reindentLine unit line new ownIndent = .ok result) : c ∉ result := by
  unfold reindentLine at h
  split_ifs at h
  · obtain ⟨_, -, h⟩ := bind_eq_ok_iff.mp h
    obtain ⟨_, -, h⟩ := bind_eq_ok_iff.mp h
    cases h
    simp [hspace, hnew]
  · cases h
    simp [hline, hnew]
  · cases h
    exact hnew

theorem not_mem_blockLine {unit nested : Int} {base line : Text} (hspace : c ≠ ' ')
    (hbase : c ∉ base) (hline : c ∉ line) : c ∉ blockLine unit base nested line := by
  unfold blockLine
  split_ifs
  · exact List.not_mem_nil
  · exact List.not_mem_append hbase hline
  · simp [hspace, hline]

end Indentation

end Composed

namespace Text

structure IsUnbroken (t : Text) : Prop where
  newline : '\n' ∉ t
  carriageReturn : '\r' ∉ t

theorem isUnbroken_indentation (t : Text) : t.indentation.IsUnbroken := by
  refine ⟨fun hc => ?_, fun hc => ?_⟩ <;>
    rcases Indentation.indentation_subset_blanks hc with h | h <;> cases h

theorem isUnbroken_of_mem_splitOn {t part : Text} (ht : '\r' ∉ t) (h : part ∈ splitOn '\n' t) :
    part.IsUnbroken :=
  ⟨not_mem_of_mem_splitOn h, fun hc => ht (subset_of_mem_splitOn h hc)⟩

theorem IsUnbroken.dropRightWhile {t : Text} (h : t.IsUnbroken) (p : Char → Bool) :
    (t.dropRightWhile p).IsUnbroken :=
  ⟨not_mem_dropRightWhile h.newline p, not_mem_dropRightWhile h.carriageReturn p⟩

end Text

theorem SourceLines.isUnbroken_of_mem_lines {t : Text} (h : '\r' ∉ t) :
    ∀ line ∈ (ofText t).lines, line.IsUnbroken := by
  intro line hline
  obtain ⟨part, hpart, rfl⟩ := exists_part_of_mem_lines hline
  have hunbroken := Text.isUnbroken_of_mem_splitOn h hpart
  exact ⟨not_mem_dropReturn hunbroken.newline, not_mem_dropReturn hunbroken.carriageReturn⟩

namespace Indentation

theorem isUnbroken_of_reindentLine {unit : Int} {line new result : Text} {ownIndent : Bool}
    (hline : line.IsUnbroken) (hnew : new.IsUnbroken)
    (h : reindentLine unit line new ownIndent = .ok result) : result.IsUnbroken :=
  ⟨not_mem_reindentLine (by decide) hline.newline hnew.newline h,
    not_mem_reindentLine (by decide) hline.carriageReturn hnew.carriageReturn h⟩

theorem isUnbroken_of_reindentBlock {unit : Int} {line : Text} {lines block : List Text}
    (hlines : ∀ l ∈ lines, l.IsUnbroken) (h : reindentBlock unit line lines = .ok block) :
    ∀ l ∈ block, l.IsUnbroken := by
  have hbase := line.isUnbroken_indentation
  obtain ⟨nested, rfl⟩ := Fixing.reindentBlock_eq_ok h
  rw [List.forall_mem_map]
  exact fun l hl => ⟨not_mem_blockLine (by decide) hbase.newline (hlines l hl).newline,
    not_mem_blockLine (by decide) hbase.carriageReturn (hlines l hl).carriageReturn⟩

end Indentation

namespace Fixing

open Indentation

section Outcome

variable {unit : Int} {line : Text} {group : List Diagnostic} (hline : line.IsUnbroken)
include hline

theorem isUnbroken_of_replacedLines {d : Diagnostic} (hfix : '\r' ∉ d.newText) {new : List Text}
    (h : replacedLines unit line d = .ok new) : ∀ l ∈ new, l.IsUnbroken := by
  unfold replacedLines at h
  split_ifs at h with hnewline
  · refine isUnbroken_of_reindentBlock (fun l hl => ?_) h
    obtain ⟨part, hpart, rfl⟩ := List.mem_map.mp hl
    exact (Text.isUnbroken_of_mem_splitOn hfix hpart).dropRightWhile _
  · obtain ⟨result, hresult, rfl⟩ := map_eq_ok_iff.mp h
    have hnew : d.newText.IsUnbroken := ⟨by simpa using hnewline, hfix⟩
    exact List.forall_mem_singleton.mpr (isUnbroken_of_reindentLine hline hnew hresult)

omit hline in
theorem isUnbroken_chosenIndent (line : Text) (ds : List Diagnostic) :
    ((chosenIndent? line.indentation ds).getD line.indentation).IsUnbroken := by
  unfold chosenIndent?
  cases ds.find? _ with
  | none => exact line.isUnbroken_indentation
  | some d => exact d.newText.isUnbroken_indentation

theorem isUnbroken_of_composedLines (hfixes : ∀ d ∈ group, '\r' ∉ d.newText) {new : List Text}
    (h : composedLines unit line group = .ok new) : ∀ l ∈ new, l.IsUnbroken := by
  have hmerged : '\r' ∉ (composeRevisions line (group.map (·.newText))).1 :=
    not_mem_composeRevisions hline.carriageReturn (List.forall_mem_map.mpr hfixes)
  have hindent := isUnbroken_chosenIndent line (composable line group)
  unfold composedLines at h
  simp only at h
  split_ifs at h with hnewline
  · obtain ⟨block, hblock, rfl⟩ := map_eq_ok_iff.mp h
    rw [List.forall_mem_map]
    exact fun l hl => (isUnbroken_of_reindentBlock
      (fun part hpart => Text.isUnbroken_of_mem_splitOn hmerged hpart) hblock l hl).dropRightWhile _
  · obtain ⟨result, hresult, rfl⟩ := map_eq_ok_iff.mp h
    refine List.forall_mem_singleton.mpr (isUnbroken_of_reindentLine hline ⟨?_, ?_⟩ hresult)
    · exact List.not_mem_append hindent.newline (by simpa using hnewline)
    · exact List.not_mem_append hindent.carriageReturn hmerged

theorem isUnbroken_of_mem_outcome (hfixes : ∀ d ∈ group, '\r' ∉ d.newText) :
    ∀ new ∈ outcome unit line group, new.IsUnbroken := by
  cases h : fixedLines unit line group with
  | error f =>
      rw [outcome_of_error h]
      exact List.forall_mem_singleton.mpr hline
  | ok new =>
      rw [outcome_of_ok h]
      unfold fixedLines at h
      split_ifs at h
      · cases h
        exact List.forall_mem_nil _
      · split at h
        · cases h
          exact List.forall_mem_singleton.mpr hline
        · exact isUnbroken_of_replacedLines hline (hfixes _ List.mem_cons_self) h
        · exact isUnbroken_of_composedLines hline hfixes h

end Outcome

variable {settings : FixSettings} {lines : List Text} {ds : List Diagnostic}

theorem lines_relocate_subset (ds : List Diagnostic) :
    (relocate settings lines ds).lines ⊆ lines := by
  unfold relocate
  simp only
  split_ifs
  · exact List.Subset.refl lines
  · cases settings.relocatable with
    | none => exact List.Subset.refl lines
    | some pattern =>
        intro line hline
        obtain ⟨i, -, hget⟩ := List.mem_filterMap.mp hline
        exact List.mem_of_getElem? hget

theorem newText_of_mem_pending {d : Diagnostic} (hd : d ∈ (relocate settings lines ds).pending) :
    ∃ e ∈ ds, d.newText = e.newText := by
  unfold relocate at hd
  simp only at hd
  split_ifs at hd
  · exact ⟨d, hd, rfl⟩
  · cases hsettings : settings.relocatable with
    | none =>
        rw [hsettings] at hd
        exact ⟨d, List.mem_of_mem_filter hd, rfl⟩
    | some pattern =>
        rw [hsettings] at hd
        obtain ⟨e, he, rfl⟩ := List.mem_map.mp hd
        exact ⟨e, List.mem_of_mem_filter he, (Relocation.keepsFixes_remap _).newText_eq e⟩

/-- What a batch comes to: the lines that it leaves, what it has carried out, and what not. -/
def batch (settings : FixSettings) (lines : List Text) (ds : List Diagnostic) : Progress :=
  let start := relocate settings lines (fixable ds)
  let planned := planAll settings.indentUnit start.lines (groupByLine start.pending)
  (bottomUp planned.plans).foldl (applyPlan settings.indentUnit)
    ⟨start.lines, start.applied, start.skipped ++ planned.skipped⟩

/-- The text plays a part in a batch only by its lines, and by how lines are written. -/
theorem applyFixes_eq_batch (settings : FixSettings) (text : Text) (ds : List Diagnostic) :
    applyFixes settings text ds =
      let source := SourceLines.ofText text
      let finish := batch settings source.lines ds
      ⟨source.renderWith finish.lines, finish.applied, finish.skipped⟩ :=
  rfl

theorem isUnbroken_of_mem_batch (settings : FixSettings)
    (hlines : ∀ line ∈ lines, line.IsUnbroken) (hfixes : ∀ d ∈ ds, '\r' ∉ d.newText) :
    ∀ line ∈ (batch settings lines ds).lines, line.IsUnbroken := by
  intro new hnew
  unfold batch at hnew
  simp only [lines_of_batch rfl] at hnew
  obtain ⟨news, hnews, hnew⟩ := List.mem_flatten.mp hnew
  obtain ⟨i, hi, rfl⟩ := List.mem_mapIdx.mp hnews
  refine isUnbroken_of_mem_outcome (hlines _ (lines_relocate_subset _ (List.getElem_mem hi)))
    (fun d hd => ?_) new hnew
  obtain ⟨e, he, heq⟩ := newText_of_mem_pending (mem_ofLine.mp hd).1
  rw [heq]
  exact hfixes e (List.mem_of_mem_filter he)

end Fixing

end LineLint
