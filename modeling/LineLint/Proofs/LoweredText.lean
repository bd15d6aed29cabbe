import LineLint.Proofs.CharacterClasses
import LineLint.Proofs.WrittenTags

/-!
# Lowered texts

Lower casing goes character by character, and one character only, the capital I with a dot, takes up
two. No character becomes a blank or a sign of markup, and none that is no part of a tag name becomes
one.
-/

namespace LineLint

variable {c : Char} {t : Text}

open Tag (isAttributeChar)
open WrittenTag (isNameChar)

/-- What holds of each ASCII character and of each one that is moved, with their lower case forms,
and of each character with itself, holds of all characters with their lower case forms. -/
theorem lowerChar_induction {P : Char → Char → Prop} (same : ∀ c, P c c)
    (ascii : ∀ n < 128, P (Char.ofNat n) (lowerChar (Char.ofNat n)))
    (moved : ∀ s ∈ lowerShifts, ∀ c : Char, 128 ≤ c.toNat → CaseShift.covers s c.toNat = true →
      P c (Char.ofNat (Int.ofNat c.toNat + s.distance).toNat)) (c : Char) :
    P c (lowerChar c) := by
  by_cases hascii : c.toNat < 128
  · exact of_forall_ascii (p := fun c => P c (lowerChar c)) ascii hascii
  · rw [lowerChar, if_neg hascii]
    split
    · rename_i m hm
      obtain ⟨s, hs, rfl⟩ := Option.map_eq_some_iff.mp hm
      exact moved s (List.mem_of_find?_eq_some hs) c (Nat.le_of_not_lt hascii)
        (List.find?_some (p := fun s => CaseShift.covers s c.toNat) hs)
    · exact same c

theorem toNat_ofNat_eq_or (n : Nat) : (Char.ofNat n).toNat = n ∨ Char.ofNat n = '\x00' := by
  by_cases hvalid : n.isValidChar
  · exact Or.inl (by rw [Char.ofNat, dif_pos hvalid]; rfl)
  · exact Or.inr (by rw [Char.ofNat, dif_neg hvalid]; rfl)

def plainRanges : List CharRange :=
  [(97, 122), (161, 5759), (5761, 8191), (8288, 12287), (12289, 1114111)]

theorem isAttributeChar_of_plainRanges (h : inRanges plainRanges c = true) :
    isAttributeChar c = true := by
  have hcode (x : Char) (hne : c.toNat ≠ x.toNat) : c ≠ x := fun heq => hne (congrArg _ heq)
  simp only [inRanges, plainRanges, CharRange.holds, List.any_cons, List.any_nil, Bool.or_eq_true,
    Bool.and_eq_true, decide_eq_true_eq, Bool.or_false] at h
  have hblank : isBlank c = false := by
    simp only [isBlank, Bool.or_eq_false_iff, Bool.and_eq_false_iff, decide_eq_false_iff_not,
      beq_eq_false_iff_ne]
    omega
  have hsigns : c ≠ '"' ∧ c ≠ '\'' ∧ c ≠ '<' ∧ c ≠ '>' ∧ c ≠ '/' ∧ c ≠ '=' := by
    refine ⟨hcode _ ?_, hcode _ ?_, hcode _ ?_, hcode _ ?_, hcode _ ?_, hcode _ ?_⟩
    all_goals
      simp only [Char.reduceToNat]
      omega
  simp [isAttributeChar, hblank, hsigns]

theorem isAttributeChar_lowerChar (hc : isAttributeChar c = true) :
    isAttributeChar (lowerChar c) = true := by
  have hmoved : lowerShifts.all (fun s => plainRanges.any fun r =>
      decide (Int.ofNat r.1 ≤ Int.ofNat s.first + s.distance) &&
        decide (Int.ofNat s.last + s.distance ≤ Int.ofNat r.2)) = true := by decide +kernel
  refine lowerChar_induction (P := fun c x => isAttributeChar c = true → isAttributeChar x = true)
    (fun _ => id) (by decide +kernel) (fun s hs c _ hcovers _ => ?_) c hc
  obtain ⟨r, hr, hwithin⟩ := List.any_eq_true.mp (List.all_eq_true.mp hmoved s hs)
  rcases toNat_ofNat_eq_or (Int.ofNat c.toNat + s.distance).toNat with hcode | hnull
  · refine isAttributeChar_of_plainRanges (List.any_eq_true.mpr ⟨r, hr, ?_⟩)
    simp only [CaseShift.covers, CharRange.holds, Bool.and_eq_true, decide_eq_true_eq,
      Int.ofNat_eq_natCast] at hcovers hwithin hcode ⊢
    omega
  · rw [hnull]
    decide

theorem isNameChar_lowerChar (hc : isNameChar c = false) : isNameChar (lowerChar c) = false := by
  -- what is moved are word characters, except for a few that are moved to no word characters
  have hmoved : lowerShifts.all (fun s =>
      (wordRanges.any fun r => Nat.ble r.1 s.first && Nat.ble s.last r.2) ||
        (Nat.ble 128 (Int.ofNat s.first + s.distance).toNat && wordRanges.all fun r =>
          decide (Int.ofNat r.2 < Int.ofNat s.first + s.distance) ||
            decide (Int.ofNat s.last + s.distance < Int.ofNat r.1)) ||
        (List.range' s.first (s.last + 1 - s.first)).all fun n =>
          !s.covers n || isWordChar (Char.ofNat n)) = true := by decide +kernel
  refine lowerChar_induction (P := fun c x => isNameChar c = false → isNameChar x = false)
    (fun _ => id) (by decide +kernel) (fun s hs c hascii hcovers hname => ?_) c hc
  have hword : isWordChar c = false := (Bool.or_eq_false_iff.mp hname).1
  have hchoice := List.all_eq_true.mp hmoved s hs
  rw [Bool.or_eq_true, Bool.or_eq_true] at hchoice
  simp only [CaseShift.covers, Bool.and_eq_true, decide_eq_true_eq] at hcovers
  rcases hchoice with (hwithin | hapart) | hall
  · obtain ⟨r, hr, hwithin⟩ := List.any_eq_true.mp hwithin
    simp only [Bool.and_eq_true, Nat.ble_eq] at hwithin
    have hholds : inRanges wordRanges c = true := List.any_eq_true.mpr ⟨r, hr, by
      simp only [CharRange.holds, Bool.and_eq_true, decide_eq_true_eq]
      omega⟩
    rw [isWordChar, if_neg (Nat.not_lt.mpr hascii), hholds] at hword
    cases hword
  · rcases toNat_ofNat_eq_or (Int.ofNat c.toNat + s.distance).toNat with hcode | hnull
    · generalize Char.ofNat (Int.ofNat c.toNat + s.distance).toNat = x at hcode ⊢
      obtain ⟨hfar, hapart⟩ := Bool.and_eq_true_iff.mp hapart
      simp only [Nat.ble_eq, Int.ofNat_eq_natCast] at hfar hcode
      have hnone : inRanges wordRanges x = false := by
        rw [inRanges, List.any_eq_false]
        intro r hr
        have hr := List.all_eq_true.mp hapart r hr
        simp only [Bool.or_eq_true, decide_eq_true_eq, Int.ofNat_eq_natCast] at hr
        simp only [CharRange.holds, Bool.and_eq_true, decide_eq_true_eq]
        omega
      have hne : x ≠ '-' := by
        rintro rfl
        simp only [Char.reduceToNat] at hcode
        omega
      rw [isNameChar, isWordChar, if_neg (by omega), hnone, beq_eq_false_iff_ne.mpr hne,
        Bool.or_false]
    · rw [hnull]
      decide
  · have hword' := List.all_eq_true.mp hall c.toNat (by rw [List.mem_range'_1]; omega)
    simp [Char.ofNat_toNat, hword, CaseShift.covers, hcovers] at hword'

/-- The capital I with a dot, which is lowered to two characters. -/
def dottedCapital : Char := Char.ofNat 0x130

namespace Text

theorem lowerFrom_cons (before : Text) (c : Char) (rest : Text) :
    ∃ lowered, lowerFrom before (c :: rest) = lowered ++ lowerFrom (c :: before) rest ∧
      lowered.length = 1 + [c].count dottedCapital ∧
      (isAttributeChar c = true → ∀ x ∈ lowered, isAttributeChar x = true) ∧
      (isWordChar c = false → lowered = [lowerChar c]) := by
  have hchar {n : Nat} (h : c.toNat = n) : c = Char.ofNat n := by rw [← h, Char.ofNat_toNat]
  refine ⟨_, rfl, ?_⟩
  by_cases hsigma : c.toNat = 0x3A3
  · obtain rfl := hchar hsigma
    rw [if_pos (by decide)]
    refine ⟨by rw [List.length_singleton]; decide, fun _ x hx => ?_,
      fun hword => absurd hword (by decide)⟩
    rw [List.mem_singleton.mp hx]
    split_ifs <;> decide
  by_cases hdotted : c.toNat = 0x130
  · obtain rfl := hchar hdotted
    rw [if_neg (by decide), if_pos (by decide)]
    exact ⟨by decide, fun _ => List.all_eq_true.mp (by decide),
      fun hword => absurd hword (by decide)⟩
  · have hne : c ≠ dottedCapital := fun h => hdotted (congrArg Char.toNat h)
    rw [if_neg (by simpa using hsigma), if_neg (by simpa using hdotted)]
    refine ⟨by simp [hne], fun hc x hx => ?_, fun _ => rfl⟩
    rw [List.mem_singleton.mp hx]
    exact isAttributeChar_lowerChar hc

theorem length_lower (t : Text) : t.lower.length = t.length + t.count dottedCapital := by
  have hlength (before : Text) :
      (lowerFrom before t).length = t.length + t.count dottedCapital := by
    induction t generalizing before with
    | nil => rfl
    | cons c rest ih =>
        obtain ⟨lowered, heq, hlowered, -⟩ := lowerFrom_cons before c rest
        have hcount : (c :: rest).count dottedCapital =
            [c].count dottedCapital + rest.count dottedCapital := by
          rw [← List.singleton_append, List.count_append]
        rw [heq, List.length_append, hlowered, ih, List.length_cons, hcount]
        omega
  exact hlength []

theorem isAttributeChar_of_mem_lower (h : ∀ c ∈ t, isAttributeChar c = true) :
    ∀ c ∈ t.lower, isAttributeChar c = true := by
  have hall (before : Text) : ∀ c ∈ lowerFrom before t, isAttributeChar c = true := by
    induction t generalizing before with
    | nil => exact List.forall_mem_nil _
    | cons c rest ih =>
        obtain ⟨hc, hrest⟩ := List.forall_mem_cons.mp h
        obtain ⟨lowered, heq, -, hlowered, -⟩ := lowerFrom_cons before c rest
        rw [heq]
        exact List.forall_mem_append.mpr ⟨hlowered hc, ih hrest _⟩
  exact hall []

theorem head?_lower (hc : isWordChar c = false) (rest : Text) :
    (lower (c :: rest)).head? = some (lowerChar c) := by
  obtain ⟨lowered, heq, -, -, hlowered⟩ := lowerFrom_cons [] c rest
  rw [lower, heq, hlowered hc]
  rfl

end Text

end LineLint
