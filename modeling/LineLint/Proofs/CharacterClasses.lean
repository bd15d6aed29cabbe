import LineLint.Blank
import LineLint.LetterCase
import Mathlib.Data.List.Basic

/-!
# Classes of characters

How the classes of characters lie to each other. What is asked of ASCII characters alone is decided
code point by code point, and what is asked of a table range by range.
-/

namespace LineLint

variable {c : Char}

theorem of_forall_ascii {p : Char → Prop} (h : ∀ n < 128, p (Char.ofNat n)) (hc : c.toNat < 128) :
    p c := by
  rw [← Char.ofNat_toNat c]
  exact h c.toNat hc

theorem toNat_lt_of_isAsciiAlphanumeric (h : isAsciiAlphanumeric c = true) : c.toNat < 128 := by
  simp only [isAsciiAlphanumeric, isAsciiLetter, isAsciiUpper, isAsciiLower, isAsciiDigit,
    Bool.or_eq_true, Bool.and_eq_true, decide_eq_true_eq] at h
  rcases h with (⟨-, hle⟩ | ⟨-, hle⟩) | ⟨-, hle⟩
  all_goals exact Nat.lt_of_le_of_lt (Char.le_def.mp hle) (by decide)

theorem isAsciiAlphanumeric_of_isAsciiLetter (h : isAsciiLetter c = true) :
    isAsciiAlphanumeric c = true := by
  rw [isAsciiAlphanumeric, h, Bool.true_or]

theorem of_forall_asciiLetter {p : Char → Prop}
    (h : ∀ n < 128, isAsciiLetter (Char.ofNat n) = true → p (Char.ofNat n))
    (hc : isAsciiLetter c = true) : p c :=
  of_forall_ascii (p := fun x => isAsciiLetter x = true → p x) h
    (toNat_lt_of_isAsciiAlphanumeric (isAsciiAlphanumeric_of_isAsciiLetter hc)) hc

/-- A class of characters whose ranges lie within those of another one. -/
theorem inRanges_of_within {inner outer : List CharRange}
    (h : inner.all (fun r => outer.any fun s => Nat.ble s.1 r.1 && Nat.ble r.2 s.2) = true)
    (hc : inRanges inner c = true) : inRanges outer c = true := by
  obtain ⟨r, hr, hholds⟩ := List.any_eq_true.mp hc
  obtain ⟨s, hs, hwithin⟩ := List.any_eq_true.mp (List.all_eq_true.mp h r hr)
  simp only [CharRange.holds, Bool.and_eq_true, decide_eq_true_eq, Nat.ble_eq] at hholds hwithin
  refine List.any_eq_true.mpr ⟨s, hs, ?_⟩
  simp only [CharRange.holds, Bool.and_eq_true, decide_eq_true_eq]
  omega

theorem isWordChar_of_isDecimal (h : isDecimal c = true) : isWordChar c = true := by
  unfold isDecimal at h
  unfold isWordChar
  split_ifs at h ⊢ with hascii
  · rw [isAsciiAlphanumeric, h, Bool.or_true, Bool.true_or]
  · exact inRanges_of_within (by decide +kernel) h

theorem isDigit_of_isDecimal (h : isDecimal c = true) : isDigit c = true := by
  unfold isDecimal at h
  unfold isDigit
  split_ifs at h ⊢
  · exact h
  · rw [h, Bool.true_or]

theorem isBlank_of_isDecimal (h : isDecimal c = true) : isBlank c = false := by
  unfold isDecimal at h
  split_ifs at h with hascii
  · have hle (x y : Char) : x ≤ y ↔ x.toNat ≤ y.toNat := UInt32.le_iff_toNat_le
    simp only [isAsciiDigit, Bool.and_eq_true, decide_eq_true_eq, hle, Char.reduceToNat] at h
    simp only [isBlank, Bool.or_eq_false_iff, Bool.and_eq_false_iff, decide_eq_false_iff_not,
      beq_eq_false_iff_ne]
    omega
  · -- the ranges of digits lie between the blanks
    have hranges : decimalDigits.all (fun r => decide (160 < r.1) &&
        (decide (r.2 < 5760) || decide (5760 < r.1) && decide (r.2 < 8192) ||
          decide (8287 < r.1) && decide (r.2 < 12288) || decide (12288 < r.1))) = true := by
      decide +kernel
    obtain ⟨range, hrange, hholds⟩ := List.any_eq_true.mp h
    have hbounds := List.all_eq_true.mp hranges range hrange
    simp only [CharRange.holds, Bool.and_eq_true, Bool.or_eq_true, decide_eq_true_eq]
      at hholds hbounds
    simp only [isBlank, Bool.or_eq_false_iff, Bool.and_eq_false_iff, decide_eq_false_iff_not,
      beq_eq_false_iff_ne]
    omega

theorem not_letter_of_isDecimal (h : isDecimal c = true) :
    (isAsciiLetter c || c == '_') = false := by
  have hle (x y : Char) : x ≤ y ↔ x.toNat ≤ y.toNat := UInt32.le_iff_toNat_le
  have hbounds : c.toNat < 65 ∨ 122 < c.toNat := by
    unfold isDecimal at h
    split_ifs at h
    · simp only [isAsciiDigit, Bool.and_eq_true, decide_eq_true_eq, hle] at h
      exact Or.inl (Nat.lt_of_le_of_lt h.2 (by decide))
    · exact Or.inr (by omega)
  have hne : c ≠ '_' := by
    rintro rfl
    revert hbounds
    decide
  have hletter : isAsciiLetter c = false := by
    simp only [isAsciiLetter, isAsciiUpper, isAsciiLower, hle, Bool.or_eq_false_iff,
      Bool.and_eq_false_iff, decide_eq_false_iff_not, Char.reduceToNat]
    omega
  simp [hletter, hne]

theorem isWordChar_of_nameStart {x : Char} (h : (isAsciiLetter x || x == '_') = true) :
    isWordChar x = true := by
  rcases Bool.or_eq_true_iff.mp h with hletter | hunderscore
  · have halphanumeric := isAsciiAlphanumeric_of_isAsciiLetter hletter
    rw [isWordChar, if_pos (toNat_lt_of_isAsciiAlphanumeric halphanumeric), halphanumeric,
      Bool.true_or]
  · rw [beq_iff_eq.mp hunderscore]
    decide

def blankCodes : List Nat :=
  List.range' 9 5 ++ List.range' 28 5 ++ [0x85, 0xA0, 0x1680] ++ List.range' 0x2000 11 ++
    [0x2028, 0x2029, 0x202F, 0x205F, 0x3000]

theorem isWordChar_of_isBlank {c : Char} (hc : isBlank c = true) : isWordChar c = false := by
  have hcode : c.toNat ∈ blankCodes := by
    simp only [isBlank, Bool.or_eq_true, Bool.and_eq_true, decide_eq_true_eq, beq_iff_eq] at hc
    simp only [blankCodes, List.mem_append, List.mem_range'_1, List.mem_cons, List.not_mem_nil]
    omega
  have hblanks : ∀ n ∈ blankCodes, isWordChar (Char.ofNat n) = false := by decide +kernel
  rw [← Char.ofNat_toNat c]
  exact hblanks c.toNat hcode

section LetterCase

theorem isAsciiLetter_of_isAsciiUpper (h : isAsciiUpper c = true) : isAsciiLetter c = true := by
  rw [isAsciiLetter, h, Bool.true_or]

theorem isAsciiLetter_of_isAsciiLower (h : isAsciiLower c = true) : isAsciiLetter c = true := by
  rw [isAsciiLetter, h, Bool.or_true]

def HasCases (c : Char) : Prop :=
  (isAsciiLower (lowerChar c) = true ∧ isAsciiUpper (upperAscii c) = true) ∧
    (lowerChar (upperAscii c) = lowerChar c ∧ upperAscii (lowerChar c) = upperAscii c) ∧
    (isAsciiLower c = true →
      lowerChar c = c ∧ (isAsciiUpper c || isAsciiDigit c || c == '_') = false) ∧
    (isAsciiUpper c = true → upperAscii c = c)

instance : DecidablePred HasCases := fun _ =>
  inferInstanceAs (Decidable ((_ ∧ _) ∧ (_ ∧ _) ∧ (_ → _ ∧ _) ∧ (_ → _)))

theorem hasCases (h : isAsciiLetter c = true) : HasCases c :=
  of_forall_asciiLetter (by decide +kernel) h

theorem isAsciiLower_lowerChar (h : isAsciiLetter c = true) : isAsciiLower (lowerChar c) = true :=
  (hasCases h).1.1

theorem isAsciiUpper_upperAscii (h : isAsciiLetter c = true) :
    isAsciiUpper (upperAscii c) = true :=
  (hasCases h).1.2

theorem lowerChar_upperAscii (h : isAsciiLetter c = true) :
    lowerChar (upperAscii c) = lowerChar c :=
  (hasCases h).2.1.1

theorem upperAscii_lowerChar (h : isAsciiLetter c = true) :
    upperAscii (lowerChar c) = upperAscii c :=
  (hasCases h).2.1.2

theorem lowerChar_of_isAsciiLower (h : isAsciiLower c = true) : lowerChar c = c :=
  ((hasCases (isAsciiLetter_of_isAsciiLower h)).2.2.1 h).1

theorem not_capital_of_isAsciiLower (h : isAsciiLower c = true) :
    (isAsciiUpper c || isAsciiDigit c || c == '_') = false :=
  ((hasCases (isAsciiLetter_of_isAsciiLower h)).2.2.1 h).2

theorem isAsciiUpper_of_isAsciiLower (h : isAsciiLower c = true) : isAsciiUpper c = false := by
  have hnone := not_capital_of_isAsciiLower h
  rw [Bool.or_eq_false_iff, Bool.or_eq_false_iff] at hnone
  exact hnone.1.1

theorem upperAscii_of_isAsciiUpper (h : isAsciiUpper c = true) : upperAscii c = c :=
  (hasCases (isAsciiLetter_of_isAsciiUpper h)).2.2.2 h

theorem map_lowerChar_of_isAsciiLower {t : Text} (h : ∀ c ∈ t, isAsciiLower c = true) :
    t.map lowerChar = t :=
  (List.map_congr_left (g := id) fun c hc => lowerChar_of_isAsciiLower (h c hc)).trans
    (List.map_id t)

theorem map_upperAscii_of_isAsciiUpper {t : Text} (h : ∀ c ∈ t, isAsciiUpper c = true) :
    t.map upperAscii = t :=
  (List.map_congr_left (g := id) fun c hc => upperAscii_of_isAsciiUpper (h c hc)).trans
    (List.map_id t)

theorem isAsciiUpper_iff_upperAscii_eq (h : isAsciiLetter c = true) :
    isAsciiUpper c = true ↔ upperAscii c = c :=
  ⟨upperAscii_of_isAsciiUpper, fun heq => heq ▸ isAsciiUpper_upperAscii h⟩

theorem isAsciiLower_iff_lowerChar_eq (h : isAsciiLetter c = true) :
    isAsciiLower c = true ↔ lowerChar c = c :=
  ⟨lowerChar_of_isAsciiLower, fun heq => heq ▸ isAsciiLower_lowerChar h⟩

theorem Text.foldChar_of_isAsciiLetter (h : isAsciiLetter c = true) :
    foldChar c = [lowerChar c] := by
  rw [foldChar, if_pos]
  exact toNat_lt_of_isAsciiAlphanumeric (isAsciiAlphanumeric_of_isAsciiLetter h)

theorem isAsciiLetter_of_isDecimal (h : isDecimal c = true) : isAsciiLetter c = false :=
  (Bool.or_eq_false_iff.mp (not_letter_of_isDecimal h)).1

theorem lowerChar_of_isDecimal (h : isDecimal c = true) : lowerChar c = c := by
  have hletter := isAsciiLetter_of_isDecimal h
  unfold isDecimal at h
  unfold lowerChar
  split_ifs at h ⊢ with hascii hupper
  · rw [isAsciiLetter, hupper, Bool.true_or] at hletter
    cases hletter
  · rfl
  · have hapart : decimalDigits.all (fun r => lowerShifts.all fun s =>
        Nat.blt r.2 s.first || Nat.blt s.last r.1) = true := by decide +kernel
    obtain ⟨r, hr, hholds⟩ := List.any_eq_true.mp h
    simp only [CharRange.holds, Bool.and_eq_true, decide_eq_true_eq] at hholds
    have hnone : lowerShifts.find? (fun s => s.covers c.toNat) = none := by
      refine List.find?_eq_none.mpr fun s hs hcovers => ?_
      simp only [CaseShift.covers, Bool.and_eq_true, decide_eq_true_eq] at hcovers
      have haparts := List.all_eq_true.mp (List.all_eq_true.mp hapart r hr) s hs
      simp only [Bool.or_eq_true, Nat.blt_eq] at haparts
      omega
    rw [CaseShift.shifted?, hnone]
    rfl

theorem upperAscii_of_isDecimal (h : isDecimal c = true) : upperAscii c = c := by
  have hletter := isAsciiLetter_of_isDecimal h
  rw [isAsciiLetter, Bool.or_eq_false_iff] at hletter
  rw [upperAscii, hletter.2, if_neg Bool.false_ne_true]

theorem isDecimal_of_isAsciiDigit (h : isAsciiDigit c = true) : isDecimal c = true := by
  rw [isDecimal, if_pos, h]
  exact toNat_lt_of_isAsciiAlphanumeric (by rw [isAsciiAlphanumeric, h, Bool.or_true])

theorem isAsciiLower_or_isAsciiDigit_lowerChar (h : isAsciiAlphanumeric c = true) :
    (isAsciiLower (lowerChar c) || isAsciiDigit (lowerChar c)) = true := by
  rcases Bool.or_eq_true_iff.mp h with hletter | hdigit
  · rw [isAsciiLower_lowerChar hletter, Bool.true_or]
  · rw [lowerChar_of_isDecimal (isDecimal_of_isAsciiDigit hdigit), hdigit, Bool.or_true]

theorem isAsciiUpper_or_isAsciiDigit_upperAscii (h : isAsciiAlphanumeric c = true) :
    (isAsciiUpper (upperAscii c) || isAsciiDigit (upperAscii c)) = true := by
  rcases Bool.or_eq_true_iff.mp h with hletter | hdigit
  · rw [isAsciiUpper_upperAscii hletter, Bool.true_or]
  · rw [upperAscii_of_isDecimal (isDecimal_of_isAsciiDigit hdigit), hdigit, Bool.or_true]

theorem isAsciiAlphanumeric_lowerChar (h : isAsciiAlphanumeric c = true) :
    isAsciiAlphanumeric (lowerChar c) = true := by
  rcases Bool.or_eq_true_iff.mp (isAsciiLower_or_isAsciiDigit_lowerChar h) with hlower | hdigit
  · exact isAsciiAlphanumeric_of_isAsciiLetter (isAsciiLetter_of_isAsciiLower hlower)
  · rw [isAsciiAlphanumeric, hdigit, Bool.or_true]

theorem isAsciiAlphanumeric_upperAscii (h : isAsciiAlphanumeric c = true) :
    isAsciiAlphanumeric (upperAscii c) = true := by
  rcases Bool.or_eq_true_iff.mp (isAsciiUpper_or_isAsciiDigit_upperAscii h) with hupper | hdigit
  · exact isAsciiAlphanumeric_of_isAsciiLetter (isAsciiLetter_of_isAsciiUpper hupper)
  · rw [isAsciiAlphanumeric, hdigit, Bool.or_true]

end LetterCase

end LineLint
