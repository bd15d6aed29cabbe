import LineLint.Casing
import LineLint.Proofs.LineRewrites
import LineLint.Proofs.TextSplit

/-!
# The characters of a text

To cut, trim, split or join texts brings in no character that they do not have, and to mask a line
brings in the null character only. Lower casing, and the conversion of a name, bring in no carriage
return.
-/

namespace LineLint

namespace Text

variable {c : Char} {t : Text}

@[simp] theorem not_mem_take (h : c ∉ t) (n : Nat) : c ∉ t.take n :=
  fun hc => h (List.mem_of_mem_take hc)

@[simp] theorem not_mem_drop (h : c ∉ t) (n : Nat) : c ∉ t.drop n :=
  fun hc => h (List.mem_of_mem_drop hc)

@[simp] theorem not_mem_takeWhile (h : c ∉ t) (p : Char → Bool) : c ∉ t.takeWhile p :=
  fun hc => h ((List.takeWhile_prefix p).subset hc)

@[simp] theorem not_mem_dropWhile (h : c ∉ t) (p : Char → Bool) : c ∉ t.dropWhile p :=
  fun hc => h ((List.dropWhile_suffix p).subset hc)

@[simp] theorem not_mem_dropLast (h : c ∉ t) : c ∉ t.dropLast :=
  fun hc => h (List.dropLast_subset t hc)

@[simp] theorem not_mem_slice (h : c ∉ t) (start stop : Nat) : c ∉ t.slice start stop :=
  not_mem_drop (not_mem_take h stop) start

@[simp] theorem not_mem_splice {new : Text} (h : c ∉ t) (hnew : c ∉ new) (start stop : Nat) :
    c ∉ t.splice start stop new := by
  simp [splice, h, hnew]

@[simp] theorem not_mem_trimLeft (h : c ∉ t) : c ∉ t.trimLeft := not_mem_dropWhile h _

@[simp] theorem not_mem_dropRightWhile (h : c ∉ t) (p : Char → Bool) :
    c ∉ t.dropRightWhile p := by
  rw [dropRightWhile, List.mem_reverse]
  exact not_mem_dropWhile (by rwa [List.mem_reverse]) p

@[simp] theorem not_mem_trimRight (h : c ∉ t) : c ∉ t.trimRight := not_mem_dropRightWhile h _

@[simp] theorem not_mem_trim (h : c ∉ t) : c ∉ t.trim := not_mem_trimRight (not_mem_trimLeft h)

@[simp] theorem not_mem_indentation (h : c ∉ t) : c ∉ t.indentation := not_mem_takeWhile h _

@[simp] theorem not_mem_dropIndentation (h : c ∉ t) : c ∉ t.dropIndentation :=
  not_mem_dropWhile h _

@[simp] theorem not_mem_spaces (h : c ≠ ' ') (n : Int) : c ∉ spaces n :=
  fun hc => h (List.eq_of_mem_replicate hc)

theorem not_mem_joinWith {separator : Text} {parts : List Text} (hseparator : c ∉ separator)
    (hparts : ∀ part ∈ parts, c ∉ part) : c ∉ joinWith separator parts := by
  cases parts with
  | nil => exact List.not_mem_nil
  | cons first rest =>
      obtain ⟨hfirst, hrest⟩ := List.forall_mem_cons.mp hparts
      rw [joinWith_cons, List.mem_append, List.mem_flatMap]
      rintro (hc | ⟨part, hpart, hc⟩)
      · exact hfirst hc
      · rcases List.mem_append.mp hc with hc | hc
        · exact hseparator hc
        · exact hrest part hpart hc

theorem subset_of_mem_splitOn {separator : Char} {part : Text}
    (h : part ∈ splitOn separator t) : part ⊆ t := by
  obtain ⟨closed, last, hsplit⟩ := exists_splitOn_eq separator t
  rw [hsplit] at h
  rw [← flatMap_append_of_splitOn hsplit]
  rcases List.mem_append.mp h with h | h
  · intro c hc
    exact List.mem_append_left _
      (List.mem_flatMap.mpr ⟨part, h, List.mem_append_left _ hc⟩)
  · rw [List.mem_singleton.mp h]
    exact List.subset_append_right _ _

end Text

theorem not_mem_getD {c : Char} {lines : List Text} (h : ∀ line ∈ lines, c ∉ line) (i : Nat) :
    c ∉ lines.getD i [] := by
  rw [List.getD_eq_getElem?_getD]
  cases hget : lines[i]? with
  | none => exact List.not_mem_nil
  | some line => exact h line (List.mem_of_getElem? hget)

namespace LiteralStyle

variable {c : Char} {line : Text}

@[simp] theorem not_mem_splitComment_fst (style : LiteralStyle) (h : c ∉ line) :
    c ∉ (style.splitComment line).1 := by
  rw [← style.splitComment_append line, List.mem_append, not_or] at h
  exact h.1

@[simp] theorem not_mem_splitComment_snd (style : LiteralStyle) (h : c ∉ line) :
    c ∉ (style.splitComment line).2 := by
  rw [← style.splitComment_append line, List.mem_append, not_or] at h
  exact h.2

@[simp] theorem not_mem_maskLiterals (style : LiteralStyle) (hmask : c ≠ maskChar)
    (h : c ∉ line) : c ∉ style.maskLiterals line := by
  intro hc
  simp only [maskLiterals, List.mem_mapIdx] at hc
  obtain ⟨i, hi, hc⟩ := hc
  split_ifs at hc
  · exact hmask hc.symm
  · exact h (hc ▸ List.getElem_mem hi)

@[simp] theorem not_mem_replaceMatches {new : Match → Text} (h : c ∉ line)
    (hnew : ∀ m, c ∉ new m) (position : Nat) (ms : List Match) :
    c ∉ replaceMatches line new position ms := by
  induction ms generalizing position with
  | nil => exact Text.not_mem_drop h position
  | cons m ms ih => simp [replaceMatches, h, hnew m, ih]

@[simp] theorem not_mem_replaceWord (style : LiteralStyle) {new : Text} (h : c ∉ line)
    (hnew : c ∉ new) (word : Text) : c ∉ style.replaceWord line word new :=
  not_mem_replaceMatches h (fun _ => hnew) 0 _

end LiteralStyle

section LetterCase

variable {c : Char}

theorem ofNat_ne_return {n : Nat} (h : n ≠ 13) : Char.ofNat n ≠ '\r' := by
  intro heq
  have hval : (Char.ofNat n).toNat = 13 := congrArg Char.toNat heq
  by_cases hvalid : n.isValidChar
  · rw [Char.ofNat, dif_pos hvalid] at hval
    exact h hval
  · rw [Char.ofNat, dif_neg hvalid] at hval
    cases hval

theorem shifted?_lowerShifts_ne_return {n m : Nat}
    (h : CaseShift.shifted? lowerShifts n = some m) : m ≠ 13 := by
  have hfar : ∀ s ∈ lowerShifts, 13 < Int.ofNat s.first + s.distance := by decide +kernel
  obtain ⟨s, hs, rfl⟩ := Option.map_eq_some_iff.mp h
  have hcovers : s.covers n = true := by simpa using List.find?_some hs
  have hlow := hfar s (List.mem_of_find?_eq_some hs)
  simp only [CaseShift.covers, Bool.and_eq_true, decide_eq_true_eq] at hcovers
  simp only [Int.ofNat_eq_natCast] at hlow ⊢
  omega

theorem lowerChar_ne_return (h : c ≠ '\r') : lowerChar c ≠ '\r' := by
  unfold lowerChar
  split_ifs with hascii hupper
  · exact ofNat_ne_return (by
      simp only [isAsciiUpper, Bool.and_eq_true, decide_eq_true_eq] at hupper
      omega)
  · exact h
  · split
    · rename_i n hn
      exact ofNat_ne_return (shifted?_lowerShifts_ne_return hn)
    · exact h

theorem upperAscii_ne_return (h : c ≠ '\r') : upperAscii c ≠ '\r' := by
  unfold upperAscii
  split_ifs with hlower
  · refine ofNat_ne_return ?_
    simp only [isAsciiLower, Bool.and_eq_true, decide_eq_true_eq] at hlower
    have : 'a'.toNat ≤ c.toNat := hlower.1
    have : 'a'.toNat = 97 := rfl
    omega
  · exact h

theorem return_not_mem_map {f : Char → Char} (hf : ∀ c, c ≠ '\r' → f c ≠ '\r') {t : Text}
    (h : '\r' ∉ t) : '\r' ∉ t.map f := by
  rw [List.mem_map]
  rintro ⟨c, hc, heq⟩
  exact hf c (ne_of_mem_of_not_mem hc h) heq

theorem Text.return_not_mem_lowerFrom {before t : Text} (h : '\r' ∉ t) :
    '\r' ∉ lowerFrom before t := by
  induction t generalizing before with
  | nil => exact List.not_mem_nil
  | cons c rest ih =>
      obtain ⟨hc, hrest⟩ := List.ne_and_not_mem_of_not_mem_cons h
      have hlowered := lowerChar_ne_return (Ne.symm hc)
      rw [lowerFrom, List.mem_append, not_or]
      refine ⟨?_, ih hrest⟩
      split_ifs <;> simp [hlowered.symm]

@[simp] theorem Text.return_not_mem_lower {t : Text} (h : '\r' ∉ t) : '\r' ∉ t.lower :=
  return_not_mem_lowerFrom h

namespace Identifier

variable {t : Text}

theorem subset_of_mem_words {w : Text} (h : w ∈ words t) : w ⊆ t := by
  fun_induction words t with
  | case1 => cases h
  | case2 c rest n _ ih => exact List.Subset.trans (ih h) (List.subset_cons_self c rest)
  | case3 c rest n _ ih =>
      rcases List.mem_cons.mp h with rfl | h
      · exact List.take_subset n (c :: rest)
      · have hdrop : rest.drop (n - 1) ⊆ c :: rest :=
          List.subset_cons_of_subset c (List.drop_subset _ rest)
        exact List.Subset.trans (ih h) hdrop

theorem return_not_mem_capitalize {w : Text} (h : '\r' ∉ w) : '\r' ∉ capitalize w := by
  cases w with
  | nil => exact List.not_mem_nil
  | cons c rest =>
      obtain ⟨hc, hrest⟩ := List.ne_and_not_mem_of_not_mem_cons h
      exact List.not_mem_cons_of_ne_of_not_mem (upperAscii_ne_return (Ne.symm hc)).symm
        (return_not_mem_map (fun _ => lowerChar_ne_return) hrest)

theorem return_not_mem_toPascal (h : '\r' ∉ t) : '\r' ∉ toPascal t := by
  rw [toPascal, List.mem_flatMap]
  rintro ⟨w, hw, hc⟩
  exact return_not_mem_capitalize (fun hmem => h (subset_of_mem_words hw hmem)) hc

theorem return_not_mem_toCamel (h : '\r' ∉ t) : '\r' ∉ toCamel t := by
  have hpascal := return_not_mem_toPascal h
  unfold toCamel
  split
  · exact List.not_mem_nil
  · rename_i c rest heq
    rw [heq] at hpascal
    obtain ⟨hc, hrest⟩ := List.ne_and_not_mem_of_not_mem_cons hpascal
    exact List.not_mem_cons_of_ne_of_not_mem (lowerChar_ne_return (Ne.symm hc)).symm hrest

theorem return_not_mem_underscored {f : Char → Char} (hf : ∀ c, c ≠ '\r' → f c ≠ '\r')
    (h : '\r' ∉ t) :
    '\r' ∉ leadingUnderscores t ++ Text.joinWith ['_'] ((words t).map fun w => w.map f) := by
  rw [List.mem_append, not_or]
  refine ⟨Text.not_mem_takeWhile h _, Text.not_mem_joinWith (by decide) fun part hpart => ?_⟩
  obtain ⟨w, hw, rfl⟩ := List.mem_map.mp hpart
  exact return_not_mem_map hf fun hmem => h (subset_of_mem_words hw hmem)

end Identifier

theorem Convention.return_not_mem_convert {t : Text} (h : '\r' ∉ t) (convention : Convention) :
    '\r' ∉ convention.convert t := by
  cases convention with
  | pascal => exact Identifier.return_not_mem_toPascal h
  | camel => exact Identifier.return_not_mem_toCamel h
  | snake => exact Identifier.return_not_mem_underscored (fun _ => lowerChar_ne_return) h
  | upperSnake => exact Identifier.return_not_mem_underscored (fun _ => upperAscii_ne_return) h

end LetterCase

end LineLint
