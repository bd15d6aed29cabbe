import LineLint.Comparison
import LineLint.DuplicateLines
import LineLint.Proofs.LineRewrites
import LineLint.Proofs.SoundRules
import LineLint.ResourceLifecycle
import LineLint.StrictMode
import LineLint.VariableIdiom

/-!
# Sound rules of names and idioms

The rules for declarations, comparisons, names, resources and repeated lines are sound. Their fixes
put words in the place of words, so that a line with something in it keeps something.
-/

namespace LineLint

theorem VarUsage.isSound (style : LiteralStyle) : (rule style).IsSound := by
  refine Rule.isSound_eachLine fun lines i line hline f hf => ?_
  simp only [check] at hf
  split at hf
  · cases hf
  · obtain rfl := List.mem_singleton.mp hf
    exact Finding.isSound_of_ne_nil hline (Finding.fills_of_fields rfl) (by simp)

theorem VarDeclaration.isSound (style : LiteralStyle) : (rule style).IsSound := by
  refine Rule.isSound_eachLine fun lines i line hline f hf => ?_
  simp only [check] at hf
  split_ifs at hf
  · obtain rfl := List.mem_singleton.mp hf
    by_cases hempty : line = []
    · exact Finding.isSound_of_isSpare hline (Finding.fills_of_fields rfl) (hempty ▸ isSpare_nil)
    · refine Finding.isSound_of_ne_nil hline (Finding.fills_of_fields rfl) fun hnil => ?_
      obtain ⟨hword, hcomment⟩ := List.append_eq_nil_iff.mp (Option.some.inj hnil)
      have hcode := style.splitComment_fst_ne_nil hempty hcomment
      exact style.replaceWord_ne_nil hcode (by decide) hword
  · cases hf

theorem RedundantEquals.isSound (style : LiteralStyle) : (rule style).IsSound := by
  refine Rule.isSound_eachLine fun lines i line hline f hf => ?_
  simp only [check] at hf
  split at hf
  · cases hf
  · split_ifs at hf with hruns
    · cases hf
    · obtain rfl := List.mem_singleton.mp hf
      refine Finding.isSound_of_ne_nil hline (Finding.fills_of_fields rfl) fun hnil => ?_
      obtain ⟨hcode, -⟩ := List.append_eq_nil_iff.mp (Option.some.inj hnil)
      obtain ⟨-, hfixed⟩ := List.append_eq_nil_iff.mp hcode
      exact LiteralStyle.replaceMatches_ne_nil (fun _ => by simp) (Or.inl (by simpa using hruns))
        hfixed

namespace NullComparison

theorem isSound_of_mem_check {spec : Spec} {style : LiteralStyle} {literal line : Text}
    {lines : List Text} {i : Nat} {f : Finding}
    (hneeds : (spec.message.slots ++ spec.hint.slots).all ["operator"].contains = true)
    (hline : lines[i]? = some line) (hf : f ∈ check style literal i line) :
    f.IsSound spec lines := by
  simp only [check] at hf
  split at hf
  · cases hf
  · obtain rfl := List.mem_singleton.mp hf
    refine Finding.isSound_of_ne_nil hline (Finding.fills_of_fields hneeds) fun hnil => ?_
    obtain ⟨hcode, -⟩ := List.append_eq_nil_iff.mp (Option.some.inj hnil)
    exact LiteralStyle.replaceMatches_ne_nil (fun _ => by simp) (Or.inl (by simp)) hcode

theorem noneRule_isSound (style : LiteralStyle) : (noneRule style).IsSound :=
  Rule.isSound_eachLine fun _ _ _ hline _ => isSound_of_mem_check rfl hline

theorem nullRule_isSound (style : LiteralStyle) : (nullRule style).IsSound :=
  Rule.isSound_eachLine fun _ _ _ hline _ => isSound_of_mem_check rfl hline

end NullComparison

theorem StrictEquality.isSound (style : LiteralStyle) : (rule style).IsSound := by
  refine Rule.isSound_eachLine fun lines i line hline f hf => ?_
  obtain ⟨t, ht, hfound⟩ := List.mem_filterMap.mp hf
  have hstrict : t.strict.toList ≠ [] := by
    simp only [tightenings, List.mem_cons, List.not_mem_nil, or_false] at ht
    rcases ht with rfl | rfl
    all_goals decide
  simp only at hfound
  split_ifs at hfound with hmatches
  obtain rfl := Option.some.inj hfound
  refine Finding.isSound_of_ne_nil hline (Finding.fills_of_fields rfl) fun hnil => ?_
  obtain ⟨hcode, -⟩ := List.append_eq_nil_iff.mp (Option.some.inj hnil)
  exact LiteralStyle.replaceMatches_ne_nil (fun _ => hstrict) (Or.inl (by simpa using hmatches))
    hcode

theorem StrictMode.isSound (style : LiteralStyle) : (rule style).IsSound := by
  refine Rule.isSound_ofCheck fun lines f hf => ?_
  simp only [check] at hf
  split_ifs at hf
  · cases hf
  · split at hf
    · cases hf
    · rename_i line i hfirst
      have hline := List.mem_zipIdx_iff_getElem?.mp (List.mem_of_find?_eq_some hfirst)
      obtain rfl := List.mem_singleton.mp hf
      exact Finding.isSound_of_ne_nil hline (Finding.fills_of_fields rfl) (by simp)

theorem KeywordCollision.isSound (r : KeywordCollision) : r.rule.IsSound := by
  refine Rule.isSound_eachLine fun lines i line hline f hf => ?_
  simp only [check] at hf
  split_ifs at hf with hskips
  · cases hf
  · have hne : line ≠ [] := Text.ne_nil_of_trim_ne_nil fun hnil => hskips (by simp [hnil])
    split at hf
    · cases hf
    · obtain rfl := List.mem_singleton.mp hf
      exact Finding.isSound_of_ne_nil hline (Finding.fills_of_fields rfl)
        fun hnil => rename_ne_nil r.style hne _ (Option.some.inj hnil)

theorem NamingConvention.isSound (r : NamingConvention) : r.rule.IsSound := by
  refine Rule.isSound_eachLine fun lines i line hline f hf => ?_
  simp only [check] at hf
  split_ifs at hf with hskips
  · cases hf
  · have hne : line ≠ [] := Text.ne_nil_of_trim_ne_nil fun hnil => hskips (by simp [hnil])
    split at hf
    · cases hf
    · rename_i t declared fixed hviolation
      obtain ⟨t', -, hviolation⟩ := List.exists_of_findSome?_eq_some hviolation
      obtain ⟨m, -, hviolation⟩ := Option.bind_eq_some_iff.mp hviolation
      split_ifs at hviolation
      obtain ⟨new, hnew, heq⟩ := Option.map_eq_some_iff.mp hviolation
      cases heq
      obtain rfl := List.mem_singleton.mp hf
      exact Finding.isSound_of_ne_nil hline (Finding.fills_of_fields rfl)
        fun hnil => r.style.replaceWord_ne_nil hne (fixed_ne_nil hnew) (Option.some.inj hnil)

namespace ResourceLifecycle

theorem marked?_ne_nil {r : ResourceLifecycle} (hmark : r.mark ≠ some []) (line code : Text) :
    r.marked? line code ≠ some [] := by
  intro hnil
  obtain ⟨mark, hsome, hnew⟩ := Option.bind_eq_some_iff.mp hnil
  split_ifs at hnew
  obtain ⟨hfront, -⟩ := List.append_eq_nil_iff.mp (Option.some.inj hnew)
  obtain ⟨-, rfl⟩ := List.append_eq_nil_iff.mp hfront
  exact hmark hsome

theorem isSound {r : ResourceLifecycle} (hmark : r.mark ≠ some []) : r.rule.IsSound := by
  refine Rule.isSound_eachLine fun lines i line hline f hf => ?_
  have hcheck : r.checkLine lines i line = some f := Option.mem_toList.mp hf
  obtain ⟨m, -, hcheck⟩ := Option.bind_eq_some_iff.mp hcheck
  split_ifs at hcheck
  obtain rfl := Option.some.inj hcheck
  exact Finding.isSound_of_ne_nil hline (Finding.fills_of_fields rfl) (marked?_ne_nil hmark _ _)

end ResourceLifecycle

namespace DuplicateLines

theorem runLength_le (stripped : Text) (lines : List Text) :
    runLength stripped lines ≤ lines.length :=
  (List.takeWhile_sublist _).length_le

theorem isSound_checkFrom (r : DuplicateLines) {lines rest : List Text} {index : Nat}
    (hrest : index + rest.length ≤ lines.length) :
    ∀ f ∈ r.checkFrom index rest, f.IsSound .duplicateLines lines := by
  fun_induction checkFrom r index rest with
  | case1 => exact List.forall_mem_nil _
  | case2 index line rest further length found ih =>
      have hfurther : further ≤ rest.length := runLength_le _ _
      rw [List.length_cons] at hrest
      refine List.forall_mem_append.mpr ⟨fun f => Finding.isSound_of_mem_ite fun _ => ?_, ih ?_⟩
      · have hlt : index < lines.length := by omega
        exact Finding.isSound_of_lt hlt (Finding.fills_of_fields rfl) (by simp)
      · rw [List.length_drop]
        omega

theorem isSound (r : DuplicateLines) : r.rule.IsSound :=
  Rule.isSound_ofCheck fun lines => r.isSound_checkFrom (by omega)

end DuplicateLines

end LineLint
