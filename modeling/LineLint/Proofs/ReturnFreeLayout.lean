import LineLint.BracePlacement
import LineLint.CommaSpacing
import LineLint.EmptyLine
import LineLint.IndentationScope
import LineLint.IndentationStep
import LineLint.Proofs.ReturnFreeRules
import LineLint.Proofs.SoundLayout
import LineLint.Terminator

/-!
# Rules of layout add no carriage return

Fixes of spacing, indentation, braces and terminators put together parts of lines, spaces, and marks
that are given with the rule. A line that is rebuilt cell by cell is made of the characters of its
cells and of operators that were read off them.
-/

namespace LineLint

theorem EmptyLine.addsNoReturn : rule.AddsNoReturn := by
  refine Rule.addsNoReturn_eachLine fun _ _ i line _ f hf => ?_
  exact Finding.addsNoReturn_of_mem_ite (by simp [Finding.AddsNoReturn]) hf

structure Cell.IsReturnFree (cell : Cell) : Prop where
  code : cell.code ≠ '\r'
  masked : cell.masked ≠ '\r'

theorem Cell.isReturnFree_of_mem_ofCode {style : LiteralStyle} {generics : Bool}
    {keywordAt : Nat → Option Text} {code : Text} (h : '\r' ∉ code) :
    ∀ cell ∈ ofCode style generics keywordAt code, cell.IsReturnFree := by
  intro cell hcell
  obtain ⟨i, hi, rfl⟩ := List.mem_mapIdx.mp hcell
  obtain ⟨hcode, hmasked⟩ := List.of_mem_zip (List.getElem_mem hi)
  exact ⟨ne_of_mem_of_not_mem hcode h,
    ne_of_mem_of_not_mem hmasked (style.not_mem_maskLiterals (by decide) h)⟩

namespace OperatorSpacing

theorem return_not_mem_push {s : Rebuilt} {chunk : Text} (h : '\r' ∉ s.text)
    (hchunk : '\r' ∉ chunk) : '\r' ∉ (s.push chunk).text := by
  simpa [Rebuilt.text, Rebuilt.push] using ⟨by simpa [Rebuilt.text] using h, hchunk⟩

theorem return_not_mem_startCell {s : Rebuilt} (h : '\r' ∉ s.text) (cell : Cell) :
    '\r' ∉ (startCell s cell).text := by
  unfold startCell
  split
  · exact return_not_mem_push h (by decide)
  · exact h

theorem return_not_mem_dropBlankChunks {chunks : List Text} (h : '\r' ∉ chunks.reverse.flatten) :
    '\r' ∉ (Rebuilt.dropBlankChunks chunks).reverse.flatten := by
  intro hc
  obtain ⟨chunk, hchunk, hc⟩ := List.mem_flatten.mp hc
  have hkept : chunk ∈ chunks := (List.dropWhile_suffix _).subset (List.mem_reverse.mp hchunk)
  exact h (List.mem_flatten.mpr ⟨chunk, List.mem_reverse.mpr hkept, hc⟩)

theorem return_not_mem_operator {tokens : List Text} {cells : List Cell} {operator : Text}
    (hcells : ∀ cell ∈ cells, cell.IsReturnFree)
    (h : operatorAt? tokens cells = some operator) : '\r' ∉ operator := by
  have hread : (cells.take operator.length).map (·.masked) = operator := by
    simpa using List.find?_some h
  rw [← hread, List.mem_map]
  rintro ⟨cell, hcell, hc⟩
  exact (hcells cell (List.mem_of_mem_take hcell)).masked hc

theorem return_not_mem_rebuild {r : OperatorSpacing} {tokens : List Text} {reversed : Text}
    {depth : Nat} {s : Rebuilt} {cells : List Cell} (h : '\r' ∉ s.text)
    (hcells : ∀ cell ∈ cells, cell.IsReturnFree) :
    '\r' ∉ (rebuild r tokens reversed depth s cells).text := by
  fun_induction rebuild r tokens reversed depth s cells with
  | case1 => exact h
  | case2 _ _ s cell rest _ _ ih =>
      obtain ⟨hcell, hrest⟩ := List.forall_mem_cons.mp hcells
      exact ih (return_not_mem_push (return_not_mem_startCell h cell)
        (by simpa using hcell.code.symm)) hrest
  | case3 _ _ s cell rest _ _ _ _ ih =>
      obtain ⟨hcell, hrest⟩ := List.forall_mem_cons.mp hcells
      exact ih (return_not_mem_push (return_not_mem_startCell h cell)
        (by simpa using hcell.code.symm)) hrest
  | case4 _ _ s cell rest _ _ _ operator hat token after =>
      rename_i ih
      refine ih (return_not_mem_push (return_not_mem_startCell h cell) ?_) fun next hnext =>
        hcells next (List.mem_cons_of_mem _ (List.mem_of_mem_drop hnext))
      rw [List.mem_map]
      rintro ⟨taken, htaken, hc⟩
      exact (hcells taken (List.mem_of_mem_take htaken)).code hc
  | case5 _ _ s cell rest _ _ _ operator hat after =>
      rename_i ih
      have hkept := return_not_mem_dropBlankChunks (return_not_mem_startCell h cell)
      have hoperator : '\r' ∉ ' ' :: operator := by simp [return_not_mem_operator hcells hat]
      exact ih (return_not_mem_push hkept hoperator) fun next hnext =>
        hcells next (List.mem_cons_of_mem _ (List.mem_of_mem_drop hnext))
  | case6 _ _ s cell rest _ _ _ operator hat after =>
      rename_i following _ ih
      have hkept := return_not_mem_dropBlankChunks (return_not_mem_startCell h cell)
      have hoperator : '\r' ∉ ' ' :: operator ++ [' '] := by
        simp [return_not_mem_operator hcells hat]
      have hsub : following <:+ after := List.dropWhile_suffix _
      exact ih (return_not_mem_push hkept hoperator) fun next hnext =>
        hcells next (List.mem_cons_of_mem _ (List.mem_of_mem_drop (hsub.subset hnext)))

theorem return_not_mem_normalize (r : OperatorSpacing) {line : Text} (h : '\r' ∉ line) :
    '\r' ∉ (r.normalize line).line := by
  rw [normalize, List.mem_append, not_or]
  refine ⟨return_not_mem_rebuild (by decide) ?_, r.style.not_mem_splitComment_snd h⟩
  exact Cell.isReturnFree_of_mem_ofCode (r.style.not_mem_splitComment_fst h)

theorem addsNoReturn (r : OperatorSpacing) : r.rule.AddsNoReturn := by
  refine Rule.addsNoReturn_eachLine fun _ _ i line hline f hf => ?_
  unfold check at hf
  have hnew := r.return_not_mem_normalize hline
  split_ifs at hf
  · cases hf
  · simp only at hf
    split at hf
    · exact List.mem_singleton.mp hf ▸ hnew
    · exact List.mem_singleton.mp hf ▸ hnew
    · cases hf

end OperatorSpacing

namespace CommaSpacing

theorem return_not_mem_insertSpaces {previous : Option Char} {cells : List Cell}
    (h : ∀ cell ∈ cells, cell.IsReturnFree) : '\r' ∉ insertSpaces previous cells := by
  fun_induction insertSpaces previous cells with
  | case1 => exact List.not_mem_nil
  | case2 _ cell => simpa using (h cell List.mem_cons_self).code.symm
  | case3 _ cell _ _ _ _ ih =>
      obtain ⟨hcell, hrest⟩ := List.forall_mem_cons.mp h
      exact List.not_mem_cons_of_ne_of_not_mem hcell.code.symm
        (List.not_mem_cons_of_ne_of_not_mem (by decide) (ih hrest))
  | case4 _ cell _ _ _ _ ih =>
      obtain ⟨hcell, hrest⟩ := List.forall_mem_cons.mp h
      exact List.not_mem_cons_of_ne_of_not_mem hcell.code.symm (ih hrest)

theorem return_not_mem_normalize (r : CommaSpacing) {line : Text} (h : '\r' ∉ line) :
    '\r' ∉ r.normalize line := by
  rw [normalize, List.mem_append, not_or]
  exact ⟨return_not_mem_insertSpaces
    (Cell.isReturnFree_of_mem_ofCode (r.style.not_mem_splitComment_fst h)),
    r.style.not_mem_splitComment_snd h⟩

theorem addsNoReturn (r : CommaSpacing) : r.rule.AddsNoReturn := by
  refine Rule.addsNoReturn_eachLine fun _ _ i line hline f hf => ?_
  simp only [check] at hf
  split_ifs at hf
  · cases hf
  · cases hf
  · exact List.mem_singleton.mp hf ▸ r.return_not_mem_normalize hline

end CommaSpacing

theorem IndentationStep.addsNoReturn (r : IndentationStep) : r.rule.AddsNoReturn := by
  refine Rule.addsNoReturn_ofFindings fun lines hlines found hfound f hf => ?_
  obtain ⟨⟨⟨line, continued⟩, i⟩, hentry, own, hown, hf⟩ := Rule.mem_flatten_of_mapM hfound hf
  have hline : '\r' ∉ line := hlines.of_mem_zip_zipIdx hentry
  simp only [checkLine] at hown
  split_ifs at hown
  · cases hown
    cases hf
  · obtain ⟨width, -, hown⟩ := bind_eq_ok_iff.mp hown
    obtain ⟨beyond, -, hown⟩ := bind_eq_ok_iff.mp hown
    split_ifs at hown <;> cases hown
    · cases hf
    · obtain rfl := List.mem_singleton.mp hf
      simp [Finding.AddsNoReturn, hline]

namespace IndentationScope

theorem addsNoReturn_of_checkFrom {r : IndentationScope} {index : Nat} {scopes : List Int}
    {entries : List (Text × Bool)} (h : ∀ entry ∈ entries, '\r' ∉ entry.1) {found : List Finding}
    (hfound : r.checkFrom index scopes entries = .ok found) : ∀ f ∈ found, f.AddsNoReturn := by
  induction entries generalizing index scopes found with
  | nil =>
      cases hfound
      exact List.forall_mem_nil _
  | cons entry rest ih =>
      obtain ⟨line, continued⟩ := entry
      obtain ⟨hline, hrest⟩ := List.forall_mem_cons.mp h
      rw [checkFrom] at hfound
      simp only at hfound
      split at hfound
      · exact ih hrest hfound
      · obtain ⟨width, -, hfound⟩ := bind_eq_ok_iff.mp hfound
        obtain ⟨further, hfurther, hfound⟩ := bind_eq_ok_iff.mp hfound
        cases hfound
        refine List.forall_mem_append.mpr ⟨fun f => ?_, ih hrest hfurther⟩
        exact Finding.addsNoReturn_of_mem_ite (by simp [Finding.AddsNoReturn, hline])

theorem addsNoReturn (r : IndentationScope) : r.rule.AddsNoReturn :=
  Rule.addsNoReturn_ofFindings fun _ hlines _ hfound =>
    addsNoReturn_of_checkFrom (fun _ hentry => hlines _ (List.of_mem_zip hentry).1) hfound

end IndentationScope

theorem BraceOwnLine.addsNoReturn (r : BraceOwnLine) : r.rule.AddsNoReturn := by
  refine Rule.addsNoReturn_eachLine fun _ _ i line hline f hf => ?_
  have hcode : '\r' ∉ (r.style.splitComment line).1 := r.style.not_mem_splitComment_fst hline
  have hheader : '\r' ∉ Text.trimRight (Text.trim (r.style.splitComment line).1).dropLast :=
    Text.not_mem_trimRight (Text.not_mem_dropLast (Text.not_mem_trim hcode))
  simp only [check] at hf
  split_ifs at hf
  · cases hf
  all_goals
    obtain rfl := List.mem_singleton.mp hf
    simp [Finding.AddsNoReturn, hline, hheader]

theorem BraceSameLine.addsNoReturn (style : LiteralStyle) : (rule style).AddsNoReturn := by
  refine Rule.addsNoReturn_eachLine fun lines hlines i line _ f hf => ?_
  split_ifs at hf
  · cases hf
  · split at hf
    · cases hf
    · rename_i above _
      have hheader : '\r' ∉ lines.getD above [] := not_mem_getD hlines above
      simp only at hf
      split_ifs at hf
      · cases hf
      · rcases List.mem_cons.mp hf with rfl | hf
        · exact List.not_mem_append (Text.not_mem_trimRight hheader) (by decide)
        · obtain rfl := List.mem_singleton.mp hf
          simp [Finding.AddsNoReturn]

theorem Terminator.addsNoReturn {r : Terminator} (h : '\r' ∉ r.terminator) :
    r.rule.AddsNoReturn := by
  refine Rule.addsNoReturn_ofCheck fun lines hlines f hf => ?_
  obtain ⟨⟨⟨line, continued⟩, i⟩, hentry, hf⟩ := List.mem_flatMap.mp hf
  have hline : '\r' ∉ line := hlines.of_mem_zip_zipIdx hentry
  simp only [checkLine] at hf
  split_ifs at hf
  · cases hf
  · cases hf
  · obtain rfl := List.mem_singleton.mp hf
    simp [Finding.AddsNoReturn, terminate, hline, h]

theorem ExtraTerminator.addsNoReturn (style : LiteralStyle) : (rule style).AddsNoReturn := by
  refine Rule.addsNoReturn_eachLine fun lines _ i line hline f hf => ?_
  obtain ⟨close, -, rfl⟩ := exists_of_checkLine (Option.mem_toList.mp hf)
  simp only [Finding.AddsNoReturn, Option.getD_some]
  split_ifs <;> simp [hline]

end LineLint
