import LineLint.BracePlacement
import LineLint.CommaSpacing
import LineLint.EmptyLine
import LineLint.IndentationScope
import LineLint.IndentationStep
import LineLint.Proofs.LineRewrites
import LineLint.Proofs.ScannedLines
import LineLint.Proofs.SoundRules
import LineLint.Proofs.UnhinderedBatch
import LineLint.Terminator

/-!
# Sound rules of layout

The rules for blank lines, spacing, indentation, braces and terminators are sound. Blank lines are
deleted, and so are lone braces below a header; every other fix leaves something of its line.
-/

namespace LineLint

theorem EmptyLine.isSound : rule.IsSound := by
  refine Rule.isSound_eachLine fun lines i line hline f hf => ?_
  unfold check at hf
  split_ifs at hf with hblank
  · obtain rfl := List.mem_singleton.mp hf
    exact Finding.isSound_of_isSpare hline (Finding.fills_of_fields rfl) (Or.inl hblank)
  · cases hf

theorem OperatorTable.byLength_ne_nil {t : OperatorTable}
    (h : ∀ token ∈ t.binary ++ t.verbatim, token ≠ []) : ∀ token ∈ t.byLength, token ≠ [] := by
  intro token htoken
  exact h token ((List.mergeSort_perm _ _).mem_iff.mp htoken)

theorem OperatorSpacing.ne_nil_of_skips {style : LiteralStyle} {skipped : List Text} {line : Text}
    (h : ¬skips style skipped line = true) : line ≠ [] :=
  Text.ne_nil_of_trim_ne_nil fun hnil => h (by simp [skips, hnil])

theorem OperatorSpacing.isSound {r : OperatorSpacing} (h : ∀ t ∈ r.table.byLength, t ≠ []) :
    r.rule.IsSound := by
  refine Rule.isSound_eachLine fun lines i line hline f hf => ?_
  unfold check at hf
  split_ifs at hf with hskips
  · cases hf
  · have hnew := normalize_line_ne_nil h (ne_nil_of_skips hskips)
    have hkeep : some (r.normalize line).line ≠ some [] := fun hnil => hnew (Option.some.inj hnil)
    simp only at hf
    split at hf
    · obtain rfl := List.mem_singleton.mp hf
      exact Finding.isSound_of_ne_nil hline (Finding.fills_of_fields rfl) hkeep
    · obtain rfl := List.mem_singleton.mp hf
      exact Finding.isSound_of_ne_nil hline (Finding.fills_of_fields rfl) hkeep
    · cases hf

namespace CommaSpacing

theorem insertSpaces_ne_nil {cells : List Cell} (h : cells ≠ []) (previous : Option Char) :
    insertSpaces previous cells ≠ [] := by
  fun_cases insertSpaces previous cells with
  | case1 => exact absurd rfl h
  | case2 => simp
  | case3 => simp
  | case4 => simp

theorem normalize_ne_nil (r : CommaSpacing) {line : Text} (hline : line ≠ []) :
    r.normalize line ≠ [] := by
  intro hnil
  obtain ⟨hcells, hcomment⟩ := List.append_eq_nil_iff.mp hnil
  have hcode := r.style.splitComment_fst_ne_nil hline hcomment
  exact insertSpaces_ne_nil (Cell.ofCode_ne_nil hcode) _ hcells

theorem isSound (r : CommaSpacing) : r.rule.IsSound := by
  refine Rule.isSound_eachLine fun lines i line hline f hf => ?_
  simp only [check] at hf
  split_ifs at hf with hskips
  · cases hf
  · cases hf
  · obtain rfl := List.mem_singleton.mp hf
    refine Finding.isSound_of_ne_nil hline (Finding.fills_of_fields rfl) fun hnil => ?_
    exact r.normalize_ne_nil (OperatorSpacing.ne_nil_of_skips hskips) (Option.some.inj hnil)

end CommaSpacing

theorem IndentationStep.isSound {r : IndentationStep} (h : Indentation.IsUsable r.unit) :
    r.rule.IsSound := by
  refine Rule.isSound_ofFindings fun lines => Rule.exists_flatten_of_isSound ?_
  rintro ⟨⟨line, continued⟩, i⟩ hentry
  have hline := (standFor_zip lines _).getElem?_of_mem_zipIdx hentry
  simp only [checkLine]
  split_ifs with hjudges
  · exact ⟨[], rfl, List.forall_mem_nil _⟩
  · have hblank : line.allBlank = false := by
      simp only [judges] at hjudges
      by_contra hall
      simp [hall] at hjudges
    rw [Indentation.measureLine_of_isUsable h]
    simp only [bind, Except.bind, Indentation.beyond_of_isUsable h]
    split_ifs
    · exact ⟨[], rfl, List.forall_mem_nil _⟩
    · refine ⟨_, rfl, fun f hf => ?_⟩
      obtain rfl := List.mem_singleton.mp hf
      refine Finding.isSound_of_ne_nil hline (Finding.fills_of_fields rfl) fun hnil => ?_
      obtain ⟨-, hdrop⟩ := List.append_eq_nil_iff.mp (Option.some.inj hnil)
      exact Text.dropIndentation_ne_nil hblank hdrop

namespace IndentationScope

theorem exists_checkFrom {r : IndentationScope} (h : Indentation.IsUsable r.unit)
    {lines : List Text} {index : Nat} {scopes : List Int} {entries : List (Text × Bool)}
    (hstand : StandFor lines index entries) :
    ∃ found, r.checkFrom index scopes entries = .ok found ∧
      ∀ f ∈ found, f.IsSound .indentationConsistency lines := by
  induction entries generalizing index scopes with
  | nil => exact ⟨[], rfl, List.forall_mem_nil _⟩
  | cons entry rest ih =>
      obtain ⟨line, continued⟩ := entry
      rw [checkFrom]
      simp only
      split
      · exact ih hstand.tail
      · rename_i hempty
        rw [Indentation.measureLine_of_isUsable h]
        refine Rule.exists_append_of_isSound
          (fun f => Finding.isSound_of_mem_ite fun _ => ?_) (ih hstand.tail)
        refine Finding.isSound_of_ne_nil hstand.head (Finding.fills_of_fields rfl) fun hnil => ?_
        obtain ⟨-, hstripped⟩ := List.append_eq_nil_iff.mp (Option.some.inj hnil)
        exact hempty (by simp [hstripped])

theorem isSound {r : IndentationScope} (h : Indentation.IsUsable r.unit) : r.rule.IsSound :=
  Rule.isSound_ofFindings fun lines => exists_checkFrom h (standFor_zip lines _)

end IndentationScope

theorem BraceOwnLine.isSound (r : BraceOwnLine) : r.rule.IsSound := by
  refine Rule.isSound_eachLine fun lines i line hline f hf => ?_
  simp only [check] at hf
  split_ifs at hf
  · cases hf
  all_goals
    obtain rfl := List.mem_singleton.mp hf
    exact Finding.isSound_of_ne_nil hline (Finding.fills_of_fields rfl) (by simp)

theorem BraceSameLine.isSound (style : LiteralStyle) : (rule style).IsSound := by
  refine Rule.isSound_eachLine fun lines i line hline f hf => ?_
  split_ifs at hf with hbrace
  · cases hf
  · cases habove : LineScan.lastCode? lines i with
    | none =>
        rw [habove] at hf
        cases hf
    | some above =>
        obtain ⟨-, header, hheader, -⟩ := LineScan.lastCode?_eq_some habove
        simp only [habove] at hf
        split_ifs at hf
        · cases hf
        · rcases List.mem_cons.mp hf with rfl | hf
          · exact Finding.isSound_of_ne_nil hheader (Finding.fills_of_fields rfl) (by simp)
          · obtain rfl := List.mem_singleton.mp hf
            exact Finding.isSound_of_isSpare hline (Finding.fills_of_fields rfl)
              (Or.inr (by simpa using hbrace))

theorem Terminator.isSound {r : Terminator} (h : r.terminator ≠ []) : r.rule.IsSound := by
  refine Rule.isSound_ofCheck fun lines f hf => ?_
  obtain ⟨⟨⟨line, continued⟩, i⟩, hentry, hf⟩ := List.mem_flatMap.mp hf
  have hline := (standFor_zip lines _).getElem?_of_mem_zipIdx hentry
  simp only [checkLine] at hf
  split_ifs at hf
  · cases hf
  · cases hf
  · obtain rfl := List.mem_singleton.mp hf
    refine Finding.isSound_of_ne_nil hline (Finding.fills_of_fields rfl) fun hnew => ?_
    have hnil : r.terminate line = [] := Option.some.inj hnew
    simp [terminate, h] at hnil

/-- A line with a terminator too many is cut behind the parenthesis that closes its condition. -/
theorem ExtraTerminator.exists_of_checkLine {style : LiteralStyle} {lines : List Text} {i : Nat}
    {line : Text} {f : Finding} (h : checkLine style lines i line = some f) :
    ∃ close, close < (style.splitComment line).1.length ∧
      f = { index := i
            replacement := (style.splitComment line).1.take (close + 1) ++
              if (style.splitComment line).2.isEmpty then []
              else ' ' :: (style.splitComment line).2 } := by
  unfold checkLine at h
  simp only at h
  obtain ⟨m, -, h⟩ := Option.bind_eq_some_iff.mp h
  split at h
  · cases h
  split at h
  · cases h
  obtain ⟨close, hclose, h⟩ := Option.bind_eq_some_iff.mp h
  split at h
  · cases h
  have hlt := LineScan.closingParen?_lt hclose
  rw [LiteralStyle.length_maskLiterals] at hlt
  exact ⟨close, hlt, (Option.some.inj h).symm⟩

theorem ExtraTerminator.isSound (style : LiteralStyle) : (rule style).IsSound := by
  refine Rule.isSound_eachLine fun lines i line hline f hf => ?_
  obtain ⟨close, hlt, rfl⟩ := exists_of_checkLine (Option.mem_toList.mp hf)
  refine Finding.isSound_of_ne_nil hline (Finding.fills_of_fields rfl) fun hnil => ?_
  obtain ⟨htake, -⟩ := List.append_eq_nil_iff.mp (Option.some.inj hnil)
  rcases List.take_eq_nil_iff.mp htake with hzero | hcode
  · cases hzero
  · rw [hcode] at hlt
    cases hlt

end LineLint
