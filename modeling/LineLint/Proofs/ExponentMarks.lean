import LineLint.OperatorSpacing
import LineLint.Proofs.CharacterClasses
import LineLint.Proofs.PatternPlaces

/-!
# Exponent marks

A sign belongs to the exponent of a number if the run of word characters and points before it is a
number and the letter of an exponent: digits, a point and more digits perhaps, and `e` or `E`.
-/

namespace LineLint

open Cursor (Passes)

namespace OperatorSpacing

def isMarkChar (c : Char) : Bool := isWordChar c || c == '.'

/-- Digits, and a point with more digits perhaps. -/
structure IsMantissa (t : Text) : Prop where
  exists_digits : ∃ whole fraction, t = whole ++ fraction ∧ whole ≠ [] ∧
    (∀ c ∈ whole, isDecimal c = true) ∧
    (fraction = [] ∨ ∃ digits, fraction = '.' :: digits ∧ ∀ c ∈ digits, isDecimal c = true)

theorem isMarkChar_of_isDecimal {c : Char} (h : isDecimal c = true) : isMarkChar c = true := by
  rw [isMarkChar, isWordChar_of_isDecimal h, Bool.true_or]

theorem IsMantissa.isMarkChar {t : Text} (h : IsMantissa t) : ∀ c ∈ t, isMarkChar c = true := by
  obtain ⟨whole, fraction, rfl, -, hwhole, hfraction⟩ := h.exists_digits
  refine List.forall_mem_append.mpr ⟨fun c hc => isMarkChar_of_isDecimal (hwhole c hc), ?_⟩
  rcases hfraction with rfl | ⟨digits, rfl, hdigits⟩
  · exact List.forall_mem_nil _
  · exact List.forall_mem_cons.mpr ⟨rfl, fun c hc => isMarkChar_of_isDecimal (hdigits c hc)⟩

section Pattern

open Pattern

variable {c d : Cursor} {before rest : Text}

/-- The pattern of an exponent mark without what it asks of the character before it. -/
def exponentBody : Pattern :=
  .plus .decimal ++ (.opt (.char '.' ++ .star .decimal) ++ (.oneOf "eE" ++ .stop))

theorem mem_results_exponentMark_iff :
    d ∈ exponentMark.results c ↔
      c.previous.any isMarkChar = false ∧ d ∈ exponentBody.results c := by
  rw [exponentMark, results_append_assoc, results_append_assoc, results_append_assoc,
    mem_results_notAfter_iff]
  rfl

theorem exists_mantissa_of_mem (h : d ∈ exponentBody.results c) :
    ∃ mantissa e rest, c.rest = mantissa ++ e :: rest ∧ IsMantissa mantissa ∧
      (e = 'e' ∨ e = 'E') ∧ (rest = [] ∨ rest = ['\n']) := by
  obtain ⟨behindWhole, hwhole, h⟩ := mem_results_append_iff.mp h
  obtain ⟨behindFraction, hfraction, h⟩ := mem_results_append_iff.mp h
  obtain ⟨behindLetter, hletter, hstop⟩ := mem_results_append_iff.mp h
  obtain ⟨behindFirst, hfirst, hmore⟩ := List.mem_flatMap.mp hwhole
  obtain ⟨first, hdigit, hfirst⟩ := passes_of_mem_one hfirst
  obtain ⟨more, hpasses⟩ := passes_of_mem_results hmore
  have hdigits := forall_of_mem_star_one hmore hpasses
  obtain ⟨e, he, hletter⟩ := passes_of_mem_one hletter
  obtain ⟨fraction, hfractionPasses, hform⟩ : ∃ fraction,
      Passes fraction behindWhole behindFraction ∧
        (fraction = [] ∨
          ∃ digits, fraction = '.' :: digits ∧ ∀ c ∈ digits, isDecimal c = true) := by
    rcases List.mem_append.mp hfraction with hsome | hnone
    · obtain ⟨behindPoint, hpoint, hdigits⟩ := mem_results_append_iff.mp hsome
      obtain ⟨point, hpoint, hpointPasses⟩ := passes_of_mem_one hpoint
      obtain ⟨digits, hdigitsPasses⟩ := passes_of_mem_results hdigits
      rw [eq_of_beq hpoint] at hpointPasses
      exact ⟨'.' :: digits, hpointPasses.trans hdigitsPasses, Or.inr ⟨digits, rfl,
        forall_of_mem_star_one hdigits hdigitsPasses⟩⟩
    · exact ⟨[], List.mem_singleton.mp hnone ▸ Passes.refl behindFraction, Or.inl rfl⟩
  refine ⟨first :: more ++ fraction, e, behindLetter.rest, ?_,
    ⟨⟨first :: more, fraction, rfl, List.cons_ne_nil _ _,
      List.forall_mem_cons.mpr ⟨hdigit, hdigits⟩, hform⟩⟩, ?_, ?_⟩
  · have hwhole := (hfirst.trans (hpasses.trans (hfractionPasses.trans hletter))).rest
    simpa using hwhole
  · simpa using he
  · rw [stop, results] at hstop
    split_ifs at hstop with hend
    · simpa [Edge.holds] using hend
    · cases hstop

theorem exists_mem_exponentBody {mantissa : Text} {e : Char} (hmantissa : IsMantissa mantissa)
    (he : e = 'e' ∨ e = 'E') (hrest : c.rest = mantissa ++ [e]) :
    ∃ d, d ∈ exponentBody.results c := by
  obtain ⟨whole, fraction, rfl, hne, hwhole, hfraction⟩ := hmantissa.exists_digits
  obtain ⟨first, more, rfl⟩ := List.exists_cons_of_ne_nil hne
  obtain ⟨hfirst, hmore⟩ := List.forall_mem_cons.mp hwhole
  rw [List.append_assoc, List.cons_append] at hrest
  obtain ⟨behindFirst, hfirstStep, hfirstPasses⟩ := Cursor.passes_step? hfirst hrest
  obtain ⟨behindWhole, hwholeMem, hwholePasses⟩ :=
    exists_mem_star_one hmore (hfirstPasses.rest_eq hrest)
  have hbehind := hwholePasses.rest_eq (hfirstPasses.rest_eq hrest)
  obtain ⟨behindFraction, hfractionMem, hfractionRest⟩ : ∃ behindFraction,
      behindFraction ∈ (opt (char '.' ++ star decimal)).results behindWhole ∧
        behindFraction.rest = [e] := by
    rcases hfraction with rfl | ⟨digits, rfl, hdigits⟩
    · exact ⟨behindWhole, List.mem_append_right _ (List.mem_singleton_self _), hbehind⟩
    · obtain ⟨behindPoint, hpointStep, hpointPasses⟩ :=
        Cursor.passes_step? (p := (· == '.')) rfl hbehind
      obtain ⟨behindDigits, hdigitsMem, hdigitsPasses⟩ :=
        exists_mem_star_one hdigits (hpointPasses.rest_eq hbehind)
      refine ⟨behindDigits, List.mem_append_left _ ?_, hdigitsPasses.rest_eq
        (hpointPasses.rest_eq hbehind)⟩
      exact mem_results_append_iff.mpr ⟨behindPoint, Option.mem_toList.mpr hpointStep, hdigitsMem⟩
  obtain ⟨behindLetter, hletterStep, hletterPasses⟩ := Cursor.passes_step?
    (p := fun c => "eE".toList.contains c) (by rcases he with rfl | rfl <;> rfl) hfractionRest
  refine ⟨behindLetter, ?_⟩
  refine mem_results_append_iff.mpr ⟨behindWhole, List.mem_flatMap.mpr ⟨behindFirst,
    Option.mem_toList.mpr hfirstStep, hwholeMem⟩, ?_⟩
  refine mem_results_append_iff.mpr ⟨behindFraction, hfractionMem, ?_⟩
  refine mem_results_append_iff.mpr ⟨behindLetter, Option.mem_toList.mpr hletterStep, ?_⟩
  have hend : behindLetter.rest = [] := hletterPasses.rest_eq hfractionRest
  simp [stop, results, Edge.holds, hend]

end Pattern

theorem isMarkChar_of_isLetter {e : Char} (he : e = 'e' ∨ e = 'E') : isMarkChar e = true := by
  rcases he with rfl | rfl <;> decide

/-- A number with the letter of an exponent is the run before a sign, if the search finds it and no
blank stands before the sign. -/
theorem exists_run_of_occursIn {reversed : Text} (hblank : reversed.head?.any isBlank = false)
    (h : exponentMark.occursIn reversed.reverse = true) :
    ∃ mantissa e, reversed.takeWhile isMarkChar = e :: mantissa.reverse ∧ IsMantissa mantissa ∧
      (e = 'e' ∨ e = 'E') := by
  obtain ⟨before, rest, d, hsplit, hd⟩ := Pattern.occursIn_iff.mp h
  obtain ⟨hprevious, hbody⟩ := mem_results_exponentMark_iff.mp hd
  obtain ⟨mantissa, e, last, hrest, hmantissa, he, hlast⟩ := exists_mantissa_of_mem hbody
  have hreversed : reversed = last.reverse ++ e :: (mantissa.reverse ++ before.reverse) := by
    have hback := congrArg List.reverse hsplit
    replace hrest : rest = mantissa ++ e :: last := hrest
    rw [hrest] at hback
    simpa using hback
  have hnil : last = [] := by
    rcases hlast with hnil | hnewline
    · exact hnil
    · rw [hreversed, hnewline] at hblank
      cases hblank
  rw [hnil, List.reverse_nil, List.nil_append] at hreversed
  have hrun : ∀ c ∈ mantissa.reverse, isMarkChar c = true := fun c hc =>
    hmantissa.isMarkChar c (List.mem_reverse.mp hc)
  have hstop : before.reverse.takeWhile isMarkChar = [] := by
    rcases List.eq_nil_or_concat before with rfl | ⟨front, c, rfl⟩
    · rfl
    · rw [List.concat_eq_append, List.reverse_concat]
      have hc : isMarkChar c = false := by simpa using hprevious
      exact List.takeWhile_cons_of_neg (by simp [hc])
  refine ⟨mantissa, e, ?_, hmantissa, he⟩
  rw [hreversed, List.takeWhile_cons_of_pos (isMarkChar_of_isLetter he),
    List.takeWhile_append_of_pos hrun, hstop, List.append_nil]

theorem occursIn_of_run {reversed mantissa : Text} {e : Char}
    (hrun : reversed.takeWhile isMarkChar = e :: mantissa.reverse) (hmantissa : IsMantissa mantissa)
    (he : e = 'e' ∨ e = 'E') : exponentMark.occursIn reversed.reverse = true := by
  have hsplit := List.takeWhile_append_dropWhile (p := isMarkChar) (l := reversed)
  rw [hrun] at hsplit
  have hprevious : ((reversed.dropWhile isMarkChar).reverse.getLast?).any isMarkChar = false := by
    rw [List.getLast?_reverse]
    have hnot := List.head?_dropWhile_not isMarkChar reversed
    cases hhead : (reversed.dropWhile isMarkChar).head? with
    | none => rfl
    | some c =>
        rw [hhead] at hnot
        simpa using hnot
  obtain ⟨d, hd⟩ := exists_mem_exponentBody
    (c := ⟨_, (reversed.dropWhile isMarkChar).reverse.getLast?, mantissa ++ [e], []⟩)
    hmantissa he rfl
  refine Pattern.occursIn_iff.mpr ⟨(reversed.dropWhile isMarkChar).reverse, mantissa ++ [e], d, ?_,
    mem_results_exponentMark_iff.mpr ⟨hprevious, hd⟩⟩
  have hback := congrArg List.reverse hsplit
  simpa using hback.symm

/-- A sign stands in an exponent if the run before it is a number and the letter of an exponent. -/
theorem inExponent_iff {operator reversed : Text} :
    inExponent operator reversed = true ↔ (operator = ['+'] ∨ operator = ['-']) ∧
      ∃ mantissa e, reversed.takeWhile isMarkChar = e :: mantissa.reverse ∧ IsMantissa mantissa ∧
        (e = 'e' ∨ e = 'E') := by
  simp only [inExponent, Bool.and_eq_true, Bool.or_eq_true, beq_iff_eq, and_assoc,
    Bool.not_eq_true']
  refine and_congr_right fun _ => ⟨fun ⟨hblank, h⟩ => exists_run_of_occursIn hblank h, ?_⟩
  rintro ⟨mantissa, e, hrun, hmantissa, he⟩
  refine ⟨?_, occursIn_of_run hrun hmantissa he⟩
  have hsplit := List.takeWhile_append_dropWhile (p := isMarkChar) (l := reversed)
  rw [hrun] at hsplit
  rw [← hsplit]
  rcases he with rfl | rfl <;> rfl

end OperatorSpacing

end LineLint
