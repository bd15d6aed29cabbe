import LineLint.BlockHeader
import LineLint.Comparison
import LineLint.ControlStructure
import LineLint.DuplicateLines
import LineLint.ImportLayout
import LineLint.Proofs.CapturedText
import LineLint.Proofs.ReturnFreeRules
import LineLint.ResourceLifecycle
import LineLint.ScopeRules
import LineLint.StrictMode
import LineLint.VariableIdiom

/-!
# Rules of statements and names add no carriage return

Fixes of control structures, block headers, imports, comparisons and names put together parts of
lines and words. A word is given with the rule, or a pattern has captured it in the line.
-/

namespace LineLint

namespace ControlStructure

structure Parts.IsReturnFree (p : Parts) : Prop where
  header : '\r' ∉ p.header
  after : '\r' ∉ p.after

theorem isReturnFree_of_parts? {body masked : Text} (hbody : '\r' ∉ body) (hmasked : '\r' ∉ masked)
    {p : Parts} (h : parts? body masked = some p) : p.IsReturnFree := by
  obtain ⟨m, -, h⟩ := Option.bind_eq_some_iff.mp h
  have hrest : '\r' ∉ Text.trimLeft (masked.drop m.stop) :=
    Text.not_mem_trimLeft (Text.not_mem_drop hmasked m.stop)
  simp only at h
  split_ifs at h
  · obtain ⟨close, -, h⟩ := Option.bind_eq_some_iff.mp h
    cases h
    exact ⟨Text.not_mem_take hbody _, Text.not_mem_trim (Text.not_mem_drop hbody _)⟩
  · cases h
    refine ⟨List.not_mem_append (by simp [hbody]) ?_, Text.not_mem_trim (by simp [hrest])⟩
    unfold placeholderCondition
    split_ifs <;> decide
  · cases h
    exact ⟨by simp [hbody], Text.not_mem_trim (by simp [hrest])⟩

variable {r : ControlStructure} {p : Parts} {lines : List Text} {index : Nat} {line trailer : Text}

theorem return_not_mem_skeleton {header text : Text} (hplaceholder : '\r' ∉ r.placeholder)
    (hheader : '\r' ∉ header) (htrailer : '\r' ∉ trailer)
    (h : r.skeleton header trailer = .ok text) : '\r' ∉ text := by
  obtain ⟨indent, hindent, h⟩ := bind_eq_ok_iff.mp h
  obtain rfl := Except.ok.inj h
  have hspaces : '\r' ∉ indent := by
    unfold bodyIndent at hindent
    split_ifs at hindent
    cases hindent
    simp
  cases r.braceStyle <;> simp [hheader, htrailer, hspaces, hplaceholder]

section Checks

variable (hplaceholder : '\r' ∉ r.placeholder) (hp : p.IsReturnFree) (htrailer : '\r' ∉ trailer)
include hplaceholder hp htrailer

theorem addsNoReturn_of_withoutBody {found : List Finding}
    (h : r.withoutBody lines index line p trailer = .ok found) : ∀ f ∈ found, f.AddsNoReturn := by
  have hsketched {found : List Finding}
      (h : (do return [({ index, replacement := ← r.skeleton p.header trailer } : Finding)]) =
        .ok found) :
      ∀ f ∈ found, f.AddsNoReturn := by
    obtain ⟨sketch, hsketch, h⟩ := bind_eq_ok_iff.mp h
    cases h
    exact List.forall_mem_singleton.mpr
      (return_not_mem_skeleton hplaceholder hp.header htrailer hsketch)
  unfold withoutBody at h
  simp only at h
  split at h
  · split_ifs at h <;> cases h
    · exact List.forall_mem_nil _
    · exact List.forall_mem_singleton.mpr (List.not_mem_append hp.header htrailer)
  · split at h
    · obtain ⟨nested, -, h⟩ := bind_eq_ok_iff.mp h
      cases nested with
      | true =>
          cases h
          exact List.forall_mem_singleton.mpr (Finding.addsNoReturn_of_none rfl)
      | false => exact hsketched h
    · exact hsketched h

theorem addsNoReturn_of_checkParts {found : List Finding}
    (h : r.checkParts lines index line p trailer = .ok found) : ∀ f ∈ found, f.AddsNoReturn := by
  unfold checkParts at h
  split_ifs at h
  · cases h
    exact List.forall_mem_nil _
  · cases h
    exact List.forall_mem_singleton.mpr (Finding.addsNoReturn_of_none rfl)
  · cases h
    exact List.forall_mem_nil _
  · cases h
    exact List.forall_mem_singleton.mpr
      (by simp [Finding.AddsNoReturn, hp.header, hp.after, htrailer])
  · cases h
    exact List.forall_mem_singleton.mpr
      (by simp [Finding.AddsNoReturn, hp.header, hp.after, htrailer])
  · exact addsNoReturn_of_withoutBody hplaceholder hp htrailer h

end Checks

theorem addsNoReturn (hplaceholder : '\r' ∉ r.placeholder) : r.rule.AddsNoReturn := by
  refine Rule.addsNoReturn_ofFindings fun lines hlines found hfound f hf => ?_
  obtain ⟨⟨line, i⟩, hentry, own, hown, hf⟩ := Rule.mem_flatten_of_mapM hfound hf
  have hline : '\r' ∉ line := hlines.of_mem_zipIdx hentry
  have hbody : '\r' ∉ (r.style.splitComment line).1.trim :=
    Text.not_mem_trim (r.style.not_mem_splitComment_fst hline)
  have hcomment : '\r' ∉ (r.style.splitComment line).2.trim :=
    Text.not_mem_trim (r.style.not_mem_splitComment_snd hline)
  simp only [checkLine] at hown
  split at hown
  · cases hown
    cases hf
  · rename_i p hparts
    refine addsNoReturn_of_checkParts hplaceholder
      (isReturnFree_of_parts? hbody (r.style.not_mem_maskLiterals (by decide) hbody) hparts)
      ?_ hown f hf
    split_ifs <;> simp [hcomment]

end ControlStructure

theorem TryHandler.addsNoReturn (r : TryHandler) : r.rule.AddsNoReturn := by
  refine Rule.addsNoReturn_of_no_fix fun lines f hf => ?_
  obtain ⟨i, line, -, hf⟩ := Rule.mem_eachLine.mp hf
  split_ifs at hf
  · cases hf
  · exact List.mem_singleton.mp hf ▸ rfl

theorem SwitchDefault.addsNoReturn (style : LiteralStyle) : (rule style).AddsNoReturn := by
  refine Rule.addsNoReturn_of_no_fix fun lines f hf => ?_
  obtain ⟨i, line, -, hf⟩ := Rule.mem_eachLine.mp hf
  simp only at hf
  split_ifs at hf
  · cases hf
  · cases hf
  · exact List.mem_singleton.mp hf ▸ rfl

theorem MissingColon.addsNoReturn (style : LiteralStyle) : (rule style).AddsNoReturn := by
  refine Rule.addsNoReturn_ofCheck fun lines hlines f hf => ?_
  obtain ⟨h, -, hfound⟩ := List.mem_filterMap.mp hf
  have hline : '\r' ∉ lines.getD h.index [] := not_mem_getD hlines h.index
  generalize lines.getD h.index [] = line at hline hfound
  split_ifs at hfound
  obtain rfl := Option.some.inj hfound
  simp [Finding.AddsNoReturn, addColon, hline]

theorem IndentedBlock.addsNoReturn (unit : Int) (style : LiteralStyle) :
    (rule unit style).AddsNoReturn := by
  refine Rule.addsNoReturn_ofCheck fun lines hlines f hf => ?_
  obtain ⟨h, -, hfound⟩ := List.mem_filterMap.mp hf
  simp only [checkHeader] at hfound
  split at hfound
  · cases hfound
  · split at hfound
    · have hheader : '\r' ∉ lines.getD h.index [] := not_mem_getD hlines h.index
      generalize lines.getD h.index [] = header at hheader hfound
      obtain rfl := Option.some.inj hfound
      simp [Finding.AddsNoReturn, hheader]
    · rename_i i _
      have hbody : '\r' ∉ lines.getD i [] := not_mem_getD hlines i
      generalize lines.getD i [] = body at hbody hfound
      split_ifs at hfound
      obtain rfl := Option.some.inj hfound
      simp [Finding.AddsNoReturn, hbody]

theorem MissingCondition.addsNoReturn (style : LiteralStyle) : (rule style).AddsNoReturn := by
  refine Rule.addsNoReturn_ofCheck fun lines hlines f hf => ?_
  obtain ⟨h, -, hfound⟩ := List.mem_filterMap.mp hf
  have hline : '\r' ∉ lines.getD h.index [] := not_mem_getD hlines h.index
  simp only [checkHeader] at hfound
  generalize lines.getD h.index [] = line at hline hfound
  split at hfound
  · rename_i hbare
    have hkeyword : '\r' ∉ h.keyword := by
      have hall : ∀ keyword ∈ BlockHeader.conditionKeywords, '\r' ∉ keyword := by decide
      simp only [Bool.and_eq_true, List.contains_iff_mem] at hbare
      exact hall h.keyword hbare.1
    have hcomment : '\r' ∉ (style.splitComment line).2.trim :=
      Text.not_mem_trim (style.not_mem_splitComment_snd hline)
    obtain rfl := Option.some.inj hfound
    simp only [Finding.AddsNoReturn, Option.getD_some]
    split_ifs <;> simp [hline, hkeyword, hcomment]
  · split_ifs at hfound
    obtain rfl := Option.some.inj hfound
    exact Finding.addsNoReturn_of_none rfl

theorem EmptyIf.addsNoReturn (unit : Int) (style : LiteralStyle) :
    (rule unit style).AddsNoReturn := by
  refine Rule.addsNoReturn_of_no_fix fun lines f hf => ?_
  obtain ⟨h, -, hfound⟩ := List.mem_filterMap.mp hf
  split_ifs at hfound
  exact Option.some.inj hfound ▸ rfl

namespace ImportLayout

theorem addsNoReturn_placementFrom {index : Nat} {codeSeen : Bool} {entries : List (Text × Bool)}
    (h : ∀ entry ∈ entries, '\r' ∉ entry.1) :
    ∀ f ∈ placementFrom index codeSeen entries, f.AddsNoReturn := by
  induction entries generalizing index codeSeen with
  | nil => exact List.forall_mem_nil _
  | cons entry rest ih =>
      obtain ⟨line, continued⟩ := entry
      obtain ⟨hline, hrest⟩ := List.forall_mem_cons.mp h
      rw [placementFrom]
      split_ifs
      · exact ih hrest
      · exact ih hrest
      · exact List.forall_mem_cons.mpr ⟨hline, ih hrest⟩
      · exact ih hrest

theorem placementRule_addsNoReturn (style : LiteralStyle) : (placementRule style).AddsNoReturn :=
  Rule.addsNoReturn_ofCheck fun _ hlines => addsNoReturn_placementFrom fun _ hentry =>
    hlines _ (List.of_mem_zip (List.mem_of_mem_drop hentry)).1

theorem singleRule_addsNoReturn (style : LiteralStyle) : (singleRule style).AddsNoReturn := by
  refine Rule.addsNoReturn_eachLine fun _ _ i line hline f hf => ?_
  have hcode : '\r' ∉ (style.splitComment line).1.trim :=
    Text.not_mem_trim (style.not_mem_splitComment_fst hline)
  have hcomment : '\r' ∉ (style.splitComment line).2.trim :=
    Text.not_mem_trim (style.not_mem_splitComment_snd hline)
  simp only [checkSingle] at hf
  split at hf
  · cases hf
  · rename_i m hm
    have hmodules : ∀ name ∈ ((Text.splitOn ',' (m.text "modules")).map Text.trim).filter
        (fun name => !name.isEmpty), '\r' ∉ name := by
      intro name hname
      obtain ⟨part, hpart, rfl⟩ := List.mem_map.mp (List.mem_of_mem_filter hname)
      refine Text.not_mem_trim fun hc => hcode ?_
      exact (Pattern.isWithin_of_matchStart? hm).text_subset _ (Text.subset_of_mem_splitOn hpart hc)
    split at hf
    · cases hf
    · split at hf
      · rename_i first second others heq
        rw [heq] at hmodules
        obtain rfl := List.mem_singleton.mp hf
        obtain ⟨hfirst, hothers⟩ := List.forall_mem_cons.mp hmodules
        refine Text.not_mem_joinWith (by decide) (List.forall_mem_cons.mpr ⟨?_, ?_⟩)
        · split_ifs <;> simp [hfirst, hcomment]
        · rw [List.forall_mem_map]
          exact fun name hname => List.not_mem_append (by decide) (hothers name hname)
      · cases hf

end ImportLayout

theorem VarUsage.addsNoReturn (style : LiteralStyle) : (rule style).AddsNoReturn := by
  refine Rule.addsNoReturn_eachLine fun _ _ i line hline f hf => ?_
  simp only [check] at hf
  split at hf
  · cases hf
  · obtain rfl := List.mem_singleton.mp hf
    simp [Finding.AddsNoReturn, hline]

theorem VarDeclaration.addsNoReturn (style : LiteralStyle) : (rule style).AddsNoReturn := by
  refine Rule.addsNoReturn_eachLine fun _ _ i line hline f hf => ?_
  simp only [check] at hf
  exact Finding.addsNoReturn_of_mem_ite (by simp [Finding.AddsNoReturn, hline]) hf

theorem RedundantEquals.addsNoReturn (style : LiteralStyle) : (rule style).AddsNoReturn := by
  refine Rule.addsNoReturn_eachLine fun _ _ i line hline f hf => ?_
  have hcode : '\r' ∉ (style.splitComment line).1 := style.not_mem_splitComment_fst hline
  simp only [check] at hf
  split at hf
  · cases hf
  · split_ifs at hf
    · cases hf
    · obtain rfl := List.mem_singleton.mp hf
      simp [Finding.AddsNoReturn, hline, hcode]

namespace NullComparison

theorem addsNoReturn_of_mem_check {style : LiteralStyle} {literal line : Text} {i : Nat}
    {f : Finding} (hliteral : '\r' ∉ literal) (hline : '\r' ∉ line)
    (hf : f ∈ check style literal i line) : f.AddsNoReturn := by
  simp only [check] at hf
  split at hf
  · cases hf
  · have hnew (m : Match) : '\r' ∉ [' '] ++ isWord m ++ [' '] ++ literal := by
      unfold isWord
      split_ifs <;> simp [hliteral]
    obtain rfl := List.mem_singleton.mp hf
    exact List.not_mem_append
      (LiteralStyle.not_mem_replaceMatches (style.not_mem_splitComment_fst hline) hnew _ _)
      (style.not_mem_splitComment_snd hline)

theorem noneRule_addsNoReturn (style : LiteralStyle) : (noneRule style).AddsNoReturn :=
  Rule.addsNoReturn_eachLine fun _ _ _ _ hline _ => addsNoReturn_of_mem_check (by decide) hline

theorem nullRule_addsNoReturn (style : LiteralStyle) : (nullRule style).AddsNoReturn :=
  Rule.addsNoReturn_eachLine fun _ _ _ _ hline _ => addsNoReturn_of_mem_check (by decide) hline

end NullComparison

theorem StrictEquality.addsNoReturn (style : LiteralStyle) : (rule style).AddsNoReturn := by
  refine Rule.addsNoReturn_eachLine fun _ _ i line hline f hf => ?_
  simp only [check] at hf
  obtain ⟨t, ht, hfound⟩ := List.mem_filterMap.mp hf
  have hstrict : '\r' ∉ t.strict.toList := by
    simp only [tightenings, List.mem_cons, List.not_mem_nil, or_false] at ht
    rcases ht with rfl | rfl
    all_goals decide
  split_ifs at hfound
  obtain rfl := Option.some.inj hfound
  simp [Finding.AddsNoReturn, hline, hstrict]

theorem StrictMode.addsNoReturn (style : LiteralStyle) : (rule style).AddsNoReturn := by
  refine Rule.addsNoReturn_ofCheck fun lines hlines f hf => ?_
  simp only [check] at hf
  split_ifs at hf
  · cases hf
  · split at hf
    · cases hf
    · rename_i line i hfirst
      have hline : '\r' ∉ line := hlines.of_mem_zipIdx (List.mem_of_find?_eq_some hfirst)
      obtain rfl := List.mem_singleton.mp hf
      simp [Finding.AddsNoReturn, hline]

theorem KeywordCollision.return_not_mem_rename (style : LiteralStyle) {line : Text}
    (hline : '\r' ∉ line) {names : List Text} (hnames : ∀ name ∈ names, '\r' ∉ name) :
    '\r' ∉ rename style line names := by
  induction names generalizing line with
  | nil => exact hline
  | cons name names ih =>
      obtain ⟨hname, hnames⟩ := List.forall_mem_cons.mp hnames
      exact ih (style.not_mem_replaceWord hline (List.not_mem_append hname (by decide)) _) hnames

theorem KeywordCollision.addsNoReturn {r : KeywordCollision}
    (hkeywords : ∀ keyword ∈ r.keywords, '\r' ∉ keyword) : r.rule.AddsNoReturn := by
  refine Rule.addsNoReturn_eachLine fun _ _ i line hline f hf => ?_
  simp only [check] at hf
  split_ifs at hf
  · cases hf
  · split at hf
    · cases hf
    · obtain rfl := List.mem_singleton.mp hf
      refine return_not_mem_rename r.style hline fun name hname => hkeywords name ?_
      simpa using (List.mem_filter.mp (List.mem_eraseDups.mp hname)).2

theorem NamingConvention.return_not_mem_fixedName {r : NamingConvention} {t : NamingTarget}
    {declared fixed : Text} (hdeclared : '\r' ∉ declared)
    (h : r.fixedName? t declared = some fixed) : '\r' ∉ fixed := by
  unfold fixedName? at h
  simp only at h
  split_ifs at h
  obtain rfl := Option.some.inj h
  exact List.not_mem_append (Text.not_mem_takeWhile hdeclared _)
    (t.convention.return_not_mem_convert (Text.not_mem_dropWhile hdeclared _))

theorem NamingConvention.addsNoReturn (r : NamingConvention) : r.rule.AddsNoReturn := by
  refine Rule.addsNoReturn_eachLine fun _ _ i line hline f hf => ?_
  have hmasked : '\r' ∉ r.style.maskLiterals (r.style.splitComment line).1 :=
    r.style.not_mem_maskLiterals (by decide) (r.style.not_mem_splitComment_fst hline)
  simp only [check] at hf
  split_ifs at hf
  · cases hf
  · split at hf
    · cases hf
    · rename_i t declared fixed hfirst
      obtain ⟨target, -, hviolation⟩ := List.exists_of_findSome?_eq_some hfirst
      obtain ⟨m, hm, hviolation⟩ := Option.bind_eq_some_iff.mp hviolation
      split_ifs at hviolation
      obtain ⟨new, hnew, heq⟩ := Option.map_eq_some_iff.mp hviolation
      cases heq
      have hdeclared : '\r' ∉ m.text "name" := fun hc =>
        hmasked ((Pattern.isWithin_of_search? hm).text_subset _ hc)
      obtain rfl := List.mem_singleton.mp hf
      exact r.style.not_mem_replaceWord hline (return_not_mem_fixedName hdeclared hnew) _

theorem ResourceLifecycle.addsNoReturn {r : ResourceLifecycle}
    (hmark : ∀ mark ∈ r.mark, '\r' ∉ mark) : r.rule.AddsNoReturn := by
  refine Rule.addsNoReturn_eachLine fun lines _ i line hline f hf => ?_
  obtain ⟨m, -, hfound⟩ := Option.bind_eq_some_iff.mp (Option.mem_toList.mp hf)
  split_ifs at hfound
  obtain rfl := Option.some.inj hfound
  unfold Finding.AddsNoReturn marked?
  cases hcase : r.mark with
  | none => exact List.not_mem_nil
  | some mark =>
      have hown : '\r' ∉ mark := hmark mark hcase
      simp only [Option.bind_some]
      split_ifs
      · simp [hline, hown]
      · exact List.not_mem_nil

namespace DuplicateLines

theorem replacement_of_mem_checkFrom (r : DuplicateLines) {index : Nat} {lines : List Text} :
    ∀ f ∈ r.checkFrom index lines, f.replacement = none := by
  fun_induction checkFrom r index lines with
  | case1 => exact List.forall_mem_nil _
  | case2 index line rest further length found ih =>
      refine List.forall_mem_append.mpr ⟨fun f hf => ?_, ih⟩
      obtain ⟨-, hf⟩ := List.mem_ite_nil_right.mp hf
      exact List.mem_singleton.mp hf ▸ rfl

theorem addsNoReturn (r : DuplicateLines) : r.rule.AddsNoReturn :=
  Rule.addsNoReturn_of_no_fix fun _ => r.replacement_of_mem_checkFrom

end DuplicateLines

end LineLint
