import LineLint.NamingConvention
import LineLint.KeywordCollision
import LineLint.OperatorSpacing
import Mathlib.Data.List.Basic

/-!
# Rewritten lines are not empty

A check that replaces parts of a line by words, or that spaces out its operators, never rewrites a
line to nothing. Only a rule that sets out to delete a line does so.
-/

namespace LineLint

namespace LiteralStyle

theorem splitComment_append (style : LiteralStyle) (line : Text) :
    (style.splitComment line).1 ++ (style.splitComment line).2 = line := by
  unfold splitComment
  split
  · exact List.append_nil line
  · exact List.take_append_drop _ line

theorem splitComment_fst_ne_nil (style : LiteralStyle) {line : Text} (hline : line ≠ [])
    (hcomment : (style.splitComment line).2 = []) : (style.splitComment line).1 ≠ [] := by
  intro hcode
  have hsplit := style.splitComment_append line
  rw [hcode, hcomment] at hsplit
  exact hline hsplit.symm

@[simp] theorem length_maskLiterals (style : LiteralStyle) (line : Text) :
    (style.maskLiterals line).length = line.length := by
  simp [maskLiterals]

theorem replaceMatches_ne_nil {line : Text} {new : Match → Text} (hnew : ∀ m, new m ≠ [])
    {ms : List Match} {position : Nat} (h : ms ≠ [] ∨ line.drop position ≠ []) :
    replaceMatches line new position ms ≠ [] := by
  cases ms with
  | nil =>
      rcases h with h | h
      · exact absurd rfl h
      · exact h
  | cons m ms =>
      rw [replaceMatches]
      simp [hnew m]

theorem replaceWord_ne_nil (style : LiteralStyle) {line word new : Text} (hline : line ≠ [])
    (hnew : new ≠ []) : style.replaceWord line word new ≠ [] :=
  replaceMatches_ne_nil (fun _ => hnew) (Or.inr hline)

end LiteralStyle

theorem Cell.ofCode_ne_nil {style : LiteralStyle} {generics : Bool}
    {keywordAt : Nat → Option Text} {code : Text} (h : code ≠ []) :
    ofCode style generics keywordAt code ≠ [] := by
  rw [← List.length_pos_iff, ofCode]
  simpa [List.length_pos_iff] using h

theorem KeywordCollision.rename_ne_nil (style : LiteralStyle) {line : Text} (hline : line ≠ [])
    (names : List Text) : rename style line names ≠ [] := by
  induction names generalizing line with
  | nil => exact hline
  | cons name names ih => exact ih (style.replaceWord_ne_nil hline (by simp))

theorem NamingConvention.fixed_ne_nil {r : NamingConvention} {t : NamingTarget}
    {declared fixed : Text} (h : r.fixedName? t declared = some fixed) : fixed ≠ [] := by
  unfold fixedName? at h
  simp only at h
  split_ifs at h with hskip
  obtain rfl := Option.some.inj h
  intro hnil
  rw [hnil] at hskip
  simp [Identifier.dropUnderscores] at hskip

namespace OperatorSpacing

theorem text_push_ne_nil (s : Rebuilt) {chunk : Text} (h : chunk ≠ []) :
    (s.push chunk).text ≠ [] := by
  simp [Rebuilt.text, Rebuilt.push, h]

theorem operatorAt?_ne_nil {tokens : List Text} (htokens : ∀ t ∈ tokens, t ≠ [])
    {cells : List Cell} {operator : Text} (h : operatorAt? tokens cells = some operator) :
    operator ≠ [] :=
  htokens operator (List.mem_of_find?_eq_some h)

theorem rebuild_text_ne_nil {r : OperatorSpacing} {tokens : List Text}
    (htokens : ∀ t ∈ tokens, t ≠ []) {reversed : Text} {depth : Nat} {s : Rebuilt}
    {cells : List Cell} (h : cells ≠ [] ∨ s.text ≠ []) :
    (rebuild r tokens reversed depth s cells).text ≠ [] := by
  fun_induction rebuild r tokens reversed depth s cells with
  | case1 reversed depth s =>
      rcases h with h | h
      · exact absurd rfl h
      · exact h
  | case2 _ _ _ _ _ _ _ ih => exact ih (Or.inr (text_push_ne_nil _ (by simp)))
  | case3 _ _ _ _ _ _ _ _ _ ih => exact ih (Or.inr (text_push_ne_nil _ (by simp)))
  | case4 _ _ _ cell rest _ _ _ operator hat token =>
      rename_i ih
      have htoken : token.map (·.code) ≠ [] := by
        obtain ⟨c, operator, rfl⟩ := List.exists_cons_of_ne_nil (operatorAt?_ne_nil htokens hat)
        simp [token]
      exact ih (Or.inr (text_push_ne_nil _ htoken))
  | case5 =>
      rename_i ih
      exact ih (Or.inr (text_push_ne_nil _ (by simp)))
  | case6 =>
      rename_i ih
      exact ih (Or.inr (text_push_ne_nil _ (by simp)))

theorem normalize_line_ne_nil {r : OperatorSpacing} (htokens : ∀ t ∈ r.table.byLength, t ≠ [])
    {line : Text} (hline : line ≠ []) : (r.normalize line).line ≠ [] := by
  intro hnil
  obtain ⟨htext, hcomment⟩ := List.append_eq_nil_iff.mp hnil
  have hcode := r.style.splitComment_fst_ne_nil hline hcomment
  exact rebuild_text_ne_nil htokens (Or.inl (Cell.ofCode_ne_nil hcode)) htext

end OperatorSpacing

end LineLint
