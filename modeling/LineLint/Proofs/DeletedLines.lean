import LineLint.Proofs.LineRoundTrip
import LineLint.Proofs.SimultaneousFixes

/-!
# Deletions and the text that is read back

A batch of deletions leaves exactly the other lines, and the fixed text is written from those. They
are read back from it where a newline closes the text or the last of them is neither empty nor ends
with a carriage return.
-/

namespace LineLint

namespace Fixing

structure AreDeletions (lines : List Text) (ds : List Diagnostic) : Prop where
  deletes : ∀ d ∈ ds, d.isDeletion = true
  stays : ∀ d ∈ ds, Spec.relocates d.code = false
  distinct : (ds.map (·.line)).Nodup
  in_range : ∀ d ∈ ds, 1 ≤ d.line ∧ d.line ≤ lines.length

def unnamedLines (lines : List Text) (ds : List Diagnostic) : List Text :=
  (lines.zipIdx.filter fun entry => (ofLine ds entry.2).isEmpty).map (·.1)

theorem unnamedLines_sublist (lines : List Text) (ds : List Diagnostic) :
    (unnamedLines lines ds).Sublist lines := by
  have hsub := (List.filter_sublist (l := lines.zipIdx)
    (p := fun entry => (ofLine ds entry.2).isEmpty)).map (·.1)
  rwa [List.zipIdx_map_fst] at hsub

theorem length_unnamedLines (lines : List Text) (ds : List Diagnostic) :
    (unnamedLines lines ds).length =
      ((List.range lines.length).filter fun i : Nat => (ofLine ds i).isEmpty).length := by
  have hindices : lines.zipIdx.map (·.2) = List.range lines.length := by
    rw [List.zipIdx_map_snd, List.range_eq_range']
  rw [← hindices, List.filter_map, List.length_map, unnamedLines, List.length_map]
  rfl

section Deletions

variable {lines : List Text} {ds : List Diagnostic}

theorem fixable_of_deletions (h : ∀ d ∈ ds, d.isDeletion = true) : fixable ds = ds := by
  apply List.filter_eq_self.mpr
  intro d hd
  have hdelete : d.replacement = some [] := by simpa [Diagnostic.isDeletion] using h d hd
  simp [Diagnostic.hasFix, hdelete]

theorem outcome_of_deletions (h : ∀ d ∈ ds, d.isDeletion = true) (unit : Int) (line : Text) :
    outcome unit line ds = if ds.isEmpty then [line] else [] := by
  cases ds with
  | nil => rfl
  | cons d ds =>
      have hany : (d :: ds).any (·.isDeletion) = true :=
        List.any_eq_true.mpr ⟨d, List.mem_cons_self, h d List.mem_cons_self⟩
      rw [outcome_of_ok (fixedLines_of_deletion hany)]
      rfl

theorem flatten_outcomes_of_deletions (h : ∀ d ∈ ds, d.isDeletion = true) (unit : Int)
    (lines : List Text) :
    (lines.mapIdx fun i line => outcome unit line (ofLine ds i)).flatten =
      unnamedLines lines ds := by
  have hstep (entry : Text × Nat) : outcome unit entry.1 (ofLine ds entry.2) =
      if (ofLine ds entry.2).isEmpty then [entry.1] else [] :=
    outcome_of_deletions (fun d hd => h d (mem_ofLine.mp hd).1) unit entry.1
  rw [List.mapIdx_eq_zipIdx_map, unnamedLines]
  induction lines.zipIdx with
  | nil => rfl
  | cons entry rest ih =>
      rw [List.map_cons, List.flatten_cons, ih, List.filter_cons]
      simp only [hstep]
      split_ifs <;> rfl

theorem AreDeletions.named_perm (h : AreDeletions lines ds) :
    ((List.range lines.length).filter fun i : Nat => !(ofLine ds i).isEmpty).Perm
      (ds.map fun d => (d.line - 1).toNat) := by
  have hrange (d : Diagnostic) (hd : d ∈ ds) := h.in_range d hd
  have hnodup : (ds.map fun d => (d.line - 1).toNat).Nodup := by
    have hlines : ds.Pairwise fun d e => d.line ≠ e.line := List.pairwise_map.mp h.distinct
    refine List.pairwise_map.mpr (hlines.imp_of_mem fun {d e} hd he hne heq => hne ?_)
    have hrd := hrange d hd
    have hre := hrange e he
    omega
  apply (List.perm_ext_iff_of_nodup (List.nodup_range.filter _) hnodup).mpr
  intro i
  simp only [List.mem_filter, List.mem_range, Bool.not_eq_true',
    List.isEmpty_eq_false_iff_exists_mem, mem_ofLine, List.mem_map]
  constructor
  · rintro ⟨-, d, hd, hline⟩
    exact ⟨d, hd, by omega⟩
  · rintro ⟨d, hd, rfl⟩
    have hrd := hrange d hd
    exact ⟨by omega, d, hd, by omega⟩

theorem AreDeletions.length_add_length (h : AreDeletions lines ds) :
    (unnamedLines lines ds).length + ds.length = lines.length := by
  have hsum := List.length_eq_length_filter_add (l := List.range lines.length)
    fun i : Nat => (ofLine ds i).isEmpty
  have hnamed := h.named_perm.length_eq
  rw [List.length_range] at hsum
  rw [List.length_map] at hnamed
  rw [length_unnamedLines]
  omega

end Deletions

variable {text : Text} {ds : List Diagnostic}

theorem applyFixes_text_of_deletions (settings : FixSettings)
    (h : AreDeletions (SourceLines.ofText text).lines ds) :
    (applyFixes settings text ds).text =
      (SourceLines.ofText text).renderWith (unnamedLines (SourceLines.ofText text).lines ds) := by
  have hfixable : fixable ds = ds := fixable_of_deletions h.deletes
  have hmoves : (moves ds).isEmpty = true := by
    rw [moves, hfixable, List.isEmpty_iff, List.filter_eq_nil_iff]
    intro d hd
    simp [h.stays d hd]
  have hlocal : localFixes ds = ds := (localFixes_of_no_moves hmoves).trans hfixable
  rw [applyFixes_text]
  simp only
  rw [relocate_of_no_moves hmoves, hlocal]
  exact congrArg _ (flatten_outcomes_of_deletions h.deletes _ _)

/-- Deletions of distinct lines leave the other lines, as many fewer as there are deletions, and the
fixed text is written from them. It is read as just these lines if a newline closes the text or the
last line left is neither empty nor ends with a carriage return. Otherwise an empty last line is
lost to the newline before it, and a carriage return at the end of a last line is dropped. -/
theorem lines_of_deletions (settings : FixSettings)
    (h : AreDeletions (SourceLines.ofText text).lines ds) :
    let source := SourceLines.ofText text
    let kept := unnamedLines source.lines ds
    let fixed := (applyFixes settings text ds).text
    kept.length + ds.length = source.lines.length ∧ fixed = source.renderWith kept ∧
      (SourceLines.ofText fixed).lines =
        (if source.trailingNewline then kept else SourceLines.openEnded kept) ∧
      ((SourceLines.ofText fixed).lines = kept ↔ source.trailingNewline = true ∨
        ∀ last, kept.getLast? = some last → last ≠ [] ∧ last.getLast? ≠ some '\r') := by
  intro source kept fixed
  have hfixed : fixed = source.renderWith kept := applyFixes_text_of_deletions settings h
  have hsub : kept.Sublist source.lines := unnamedLines_sublist _ _
  have hlines : (SourceLines.ofText fixed).lines =
      if source.trailingNewline then kept else SourceLines.openEnded kept := by
    rw [hfixed]
    apply SourceLines.lines_ofText_renderWith
    · exact fun line hline => SourceLines.newline_not_mem_line (hsub.subset hline)
    · exact fun line hline => SourceLines.isClosedLine_of_sublist hsub hline
  refine ⟨h.length_add_length, hfixed, hlines, ?_⟩
  rw [hlines, ← SourceLines.openEnded_eq_self_iff]
  cases source.trailingNewline with
  | true => simp
  | false => simp

/-- With its last line deleted, a text that has no newline at its end and a blank line before that
one loses both lines. -/
theorem lines_of_deletions_blankBeforeLast :
    let lines := (SourceLines.ofText ['a', '\n', '\n', 'b']).lines
    let d : Diagnostic :=
      { code := "DELETE", message := [], line := 3, category := "Formatting", suggestion := [],
        replacement := some [] }
    let fixed := (applyFixes {} ['a', '\n', '\n', 'b'] [d]).text
    AreDeletions lines [d] ∧ unnamedLines lines [d] = [['a'], []] ∧ fixed = ['a', '\n'] ∧
      (SourceLines.ofText fixed).lines = [['a']] := by
  intro lines d fixed
  have hdeletions : AreDeletions lines [d] := by
    constructor <;> decide
  obtain ⟨-, hfixed, hlines, -⟩ := lines_of_deletions {} hdeletions
  have hkept : unnamedLines lines [d] = [['a'], []] := by decide
  exact ⟨hdeletions, hkept, hfixed.trans (by decide), hlines.trans (by decide)⟩

end Fixing

end LineLint
