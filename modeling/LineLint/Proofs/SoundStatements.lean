import LineLint.BlockHeader
import LineLint.ControlStructure
import LineLint.ImportLayout
import LineLint.Proofs.LineRewrites
import LineLint.Proofs.ScannedLines
import LineLint.Proofs.SoundRules
import LineLint.Proofs.TextSplit
import LineLint.Proofs.UnhinderedBatch
import LineLint.ScopeRules

/-!
# Sound rules of statements

The rules for control structures, block headers, clauses and imports are sound. A finding may be
about a line other than the one that shows it, such as the body below a header; that line lies in
the text too.
-/

namespace LineLint

namespace ControlStructure

theorem header_ne_nil {body masked : Text} {p : Parts} (h : parts? body masked = some p)
    (hparens : p.hasParens = false) : p.header ≠ [] := by
  obtain ⟨m, -, h⟩ := Option.bind_eq_some_iff.mp h
  simp only at h
  split_ifs at h
  · obtain ⟨close, -, h⟩ := Option.bind_eq_some_iff.mp h
    cases h
    cases hparens
  · cases h
    simp
  · cases h
    simp

theorem forall_isSound {lines : List Text} {index : Nat} {f : Finding} (hlt : index < lines.length)
    (hindex : f.index = index) (hne : f.replacement ≠ some []) :
    ∀ g ∈ [f], g.IsSound .controlStructure lines :=
  List.forall_mem_singleton.mpr
    (Finding.isSound_of_lt (hindex ▸ hlt) (Finding.fills_of_fields rfl) hne)

section Usable

variable {r : ControlStructure} (hunit : Indentation.IsUsable r.unit)
include hunit

theorem bodyIndent_of_isUsable : bodyIndent r.unit = .ok (Text.spaces r.unit) := by
  have hrange := hunit.tabWidth
  simp only [Indentation.isTabWidth, Bool.and_eq_true, decide_eq_true_eq] at hrange
  rw [bodyIndent, if_neg (by omega), if_neg (by omega)]

theorem exists_skeleton (header trailer : Text) :
    ∃ text, r.skeleton header trailer = .ok text ∧ text ≠ [] := by
  rw [skeleton, bodyIndent_of_isUsable hunit]
  exact ⟨_, rfl, by simp⟩

theorem exists_isNested (line following : Text) :
    ∃ nested, r.isNested line following = .ok nested := by
  rw [isNested, Indentation.measureLine_of_isUsable hunit,
    Indentation.measureLine_of_isUsable hunit]
  exact ⟨_, rfl⟩

section Parts

variable {lines : List Text} {index : Nat} {p : Parts} (hlt : index < lines.length)
  (hheader : p.hasParens = false → p.header ≠ [])
include hlt hheader

theorem exists_withoutBody (line trailer : Text) :
    ∃ found, r.withoutBody lines index line p trailer = .ok found ∧
      ∀ f ∈ found, f.IsSound .controlStructure lines := by
  obtain ⟨sketch, hsketch, hne⟩ := exists_skeleton hunit p.header trailer
  have hsketched : ∀ f ∈ [({ index, replacement := sketch } : Finding)],
      f.IsSound .controlStructure lines :=
    forall_isSound hlt rfl (by simpa using hne)
  simp only [withoutBody, hsketch]
  split
  · split_ifs with hparens
    · exact ⟨[], rfl, List.forall_mem_nil _⟩
    · have hkept : p.header ≠ [] := hheader (by simpa using hparens)
      exact ⟨_, rfl, forall_isSound hlt rfl (by simp [hkept])⟩
  · split
    · obtain ⟨nested, hnested⟩ := exists_isNested hunit line _
      rw [hnested]
      cases nested with
      | false => exact ⟨_, rfl, hsketched⟩
      | true => exact ⟨_, rfl, forall_isSound hlt rfl (by simp)⟩
    · exact ⟨_, rfl, hsketched⟩

theorem exists_checkParts (line trailer : Text) :
    ∃ found, r.checkParts lines index line p trailer = .ok found ∧
      ∀ f ∈ found, f.IsSound .controlStructure lines := by
  simp only [checkParts]
  split_ifs
  · exact ⟨[], rfl, List.forall_mem_nil _⟩
  · exact ⟨_, rfl, forall_isSound hlt rfl (by simp)⟩
  · exact ⟨[], rfl, List.forall_mem_nil _⟩
  · exact ⟨_, rfl, forall_isSound hlt rfl (by simp)⟩
  · exact ⟨_, rfl, forall_isSound hlt rfl (by simp)⟩
  · exact exists_withoutBody hunit hlt hheader line trailer

end Parts

theorem isSound : r.rule.IsSound := by
  refine Rule.isSound_ofFindings fun lines => Rule.exists_flatten_of_isSound ?_
  rintro ⟨line, i⟩ hentry
  have hlt : i < lines.length :=
    (List.getElem?_eq_some_iff.mp (List.mem_zipIdx_iff_getElem?.mp hentry)).1
  simp only [checkLine]
  split
  · exact ⟨[], rfl, List.forall_mem_nil _⟩
  · rename_i p hparts
    exact exists_checkParts hunit hlt (header_ne_nil hparts) line _

end Usable

end ControlStructure

theorem TryHandler.isSound (r : TryHandler) : r.rule.IsSound := by
  refine Rule.isSound_eachLine fun lines i line hline f hf => ?_
  split_ifs at hf
  · cases hf
  · obtain rfl := List.mem_singleton.mp hf
    exact Finding.isSound_of_ne_nil hline (Finding.fills_of_fields rfl) (by simp)

theorem SwitchDefault.isSound (style : LiteralStyle) : (rule style).IsSound := by
  refine Rule.isSound_eachLine fun lines i line hline f hf => ?_
  simp only at hf
  split_ifs at hf
  · cases hf
  · cases hf
  · obtain rfl := List.mem_singleton.mp hf
    exact Finding.isSound_of_ne_nil hline (Finding.fills_of_fields rfl) (by simp)

theorem BlockHeader.index_lt {style : LiteralStyle} {lines : List Text} {h : BlockHeader}
    (hmem : h ∈ all style lines) : h.index < lines.length := by
  obtain ⟨⟨⟨line, continued⟩, i⟩, hentry, hfound⟩ := List.mem_filterMap.mp hmem
  have hline := (standFor_zip lines _).getElem?_of_mem_zipIdx hentry
  simp only at hfound
  split_ifs at hfound
  obtain ⟨m, -, hfound⟩ := Option.bind_eq_some_iff.mp hfound
  split_ifs at hfound
  obtain rfl := Option.some.inj hfound
  exact (List.getElem?_eq_some_iff.mp hline).1

theorem MissingColon.isSound (style : LiteralStyle) : (rule style).IsSound := by
  refine Rule.isSound_ofCheck fun lines f hf => ?_
  obtain ⟨h, hmem, hfound⟩ := List.mem_filterMap.mp hf
  split_ifs at hfound
  obtain rfl := Option.some.inj hfound
  exact Finding.isSound_of_lt (BlockHeader.index_lt hmem)
    (Finding.fills_of_fields rfl) (by simp [addColon])

namespace IndentedBlock

theorem firstBody?_eq_some {style : LiteralStyle} {lines : List Text} {start i : Nat}
    (h : firstBody? style lines start = some i) :
    ∃ body, lines[i]? = some body ∧ body.trim ≠ [] := by
  obtain ⟨offset, hoffset, rfl⟩ := Option.map_eq_some_iff.mp h
  obtain ⟨hlt, hcode, -⟩ := List.findIdx?_eq_some_iff_getElem.mp hoffset
  refine ⟨(lines.drop start)[offset], ?_, fun hnil => ?_⟩
  · rw [Nat.add_comm, ← List.getElem?_drop]
    exact List.getElem?_eq_getElem hlt
  · rw [hnil] at hcode
    cases hcode

theorem isSound (unit : Int) (style : LiteralStyle) : (rule unit style).IsSound := by
  refine Rule.isSound_ofCheck fun lines f hf => ?_
  obtain ⟨h, hmem, hfound⟩ := List.mem_filterMap.mp hf
  simp only [checkHeader] at hfound
  split at hfound
  · cases hfound
  · split at hfound
    · obtain rfl := Option.some.inj hfound
      exact Finding.isSound_of_lt (BlockHeader.index_lt hmem)
        (Finding.fills_of_fields rfl) (by simp)
    · rename_i i hfirst
      obtain ⟨body, hbody, hcode⟩ := firstBody?_eq_some hfirst
      have hget : lines.getD i [] = body := by simp [hbody]
      rw [hget] at hfound
      split_ifs at hfound
      obtain rfl := Option.some.inj hfound
      refine Finding.isSound_of_ne_nil hbody (Finding.fills_of_fields rfl) fun hnil => ?_
      exact hcode (List.append_eq_nil_iff.mp (Option.some.inj hnil)).2

end IndentedBlock

theorem MissingCondition.isSound (style : LiteralStyle) : (rule style).IsSound := by
  refine Rule.isSound_ofCheck fun lines f hf => ?_
  obtain ⟨h, hmem, hfound⟩ := List.mem_filterMap.mp hf
  simp only [checkHeader] at hfound
  split at hfound
  · obtain rfl := Option.some.inj hfound
    exact Finding.isSound_of_lt (BlockHeader.index_lt hmem) (Finding.fills_of_fields rfl) (by simp)
  · split_ifs at hfound
    obtain rfl := Option.some.inj hfound
    exact Finding.isSound_of_lt (BlockHeader.index_lt hmem) (Finding.fills_of_fields rfl) (by simp)

theorem EmptyIf.isSound (unit : Int) (style : LiteralStyle) : (rule unit style).IsSound := by
  refine Rule.isSound_ofCheck fun lines f hf => ?_
  obtain ⟨h, hmem, hfound⟩ := List.mem_filterMap.mp hf
  split_ifs at hfound
  obtain rfl := Option.some.inj hfound
  exact Finding.isSound_of_lt (BlockHeader.index_lt hmem) (Finding.fills_of_fields rfl) (by simp)

namespace ImportLayout

theorem isSound_placementFrom {lines : List Text} {index : Nat} {codeSeen : Bool}
    {entries : List (Text × Bool)} (hstand : StandFor lines index entries) :
    ∀ f ∈ placementFrom index codeSeen entries, f.IsSound .importPlacement lines := by
  induction entries generalizing index codeSeen with
  | nil => exact List.forall_mem_nil _
  | cons entry rest ih =>
      obtain ⟨line, continued⟩ := entry
      rw [placementFrom]
      split_ifs with hskip
      · exact ih hstand.tail
      · exact ih hstand.tail
      · have hline : line ≠ [] :=
          Text.ne_nil_of_trim_ne_nil fun hnil => hskip (by simp [hnil])
        exact List.forall_mem_cons.mpr
          ⟨Finding.isSound_of_ne_nil hstand.head
            (Finding.fills_of_fields rfl) (by simpa using hline), ih hstand.tail⟩
      · exact ih hstand.tail

theorem placementRule_isSound (style : LiteralStyle) : (placementRule style).IsSound :=
  Rule.isSound_ofCheck fun lines => isSound_placementFrom ((standFor_zip lines _).drop _)

theorem singleRule_isSound (style : LiteralStyle) : (singleRule style).IsSound := by
  refine Rule.isSound_eachLine fun lines i line hline f hf => ?_
  simp only [checkSingle] at hf
  split at hf
  · cases hf
  · split at hf
    · cases hf
    · split at hf
      · obtain rfl := List.mem_singleton.mp hf
        exact Finding.isSound_of_ne_nil hline
          (Finding.fills_of_fields rfl) (by simp [Text.joinWith_cons])
      · cases hf

end ImportLayout

end LineLint
