import LineLint.Casing
import LineLint.Proofs.CharacterClasses
import Mathlib.Data.List.TakeWhile

/-!
# The words of an identifier

An identifier is read as words with other characters between them. A word is a run of capitals, or
a run of small letters with at most one capital before it, and the decimal digits behind the run.
Every ASCII letter and every decimal digit belongs to a word, and nothing else does.
-/

namespace LineLint

namespace Identifier

variable {c : Char} {t w upper lower rest : Text} {ws : List Text}

def isWordPart (c : Char) : Bool := isAsciiLetter c || isDecimal c

section Parts

theorem isWordPart_of_isAsciiLetter (h : isAsciiLetter c = true) : isWordPart c = true := by
  rw [isWordPart, h, Bool.true_or]

theorem isWordPart_of_isAsciiUpper (h : isAsciiUpper c = true) : isWordPart c = true :=
  isWordPart_of_isAsciiLetter (isAsciiLetter_of_isAsciiUpper h)

theorem isWordPart_of_isAsciiLower (h : isAsciiLower c = true) : isWordPart c = true :=
  isWordPart_of_isAsciiLetter (isAsciiLetter_of_isAsciiLower h)

theorem isWordPart_of_isDecimal (h : isDecimal c = true) : isWordPart c = true := by
  rw [isWordPart, h, Bool.or_true]

theorem isWordPart_eq_false_iff : isWordPart c = false ↔
    isAsciiUpper c = false ∧ isAsciiLower c = false ∧ isDecimal c = false := by
  rw [isWordPart, isAsciiLetter, Bool.or_eq_false_iff, Bool.or_eq_false_iff, and_assoc]

end Parts

/-- Capitals, or small letters with at most one capital before them, and digits behind them. -/
inductive IsWord : Text → Prop
  | capitals {upper digits : Text} (hupper : ∀ c ∈ upper, isAsciiUpper c = true)
      (hdigits : ∀ c ∈ digits, isDecimal c = true) (hne : upper ++ digits ≠ []) :
      IsWord (upper ++ digits)
  | small {upper lower digits : Text} (hupper : ∀ c ∈ upper, isAsciiUpper c = true)
      (hone : upper.length ≤ 1) (hlower : ∀ c ∈ lower, isAsciiLower c = true) (hne : lower ≠ [])
      (hdigits : ∀ c ∈ digits, isDecimal c = true) : IsWord (upper ++ lower ++ digits)

theorem IsWord.ne_nil (h : IsWord w) : w ≠ [] := by
  cases h with
  | capitals _ _ hne => exact hne
  | small _ _ _ hne _ => simp [hne]

theorem IsWord.isWordPart (h : IsWord w) : ∀ c ∈ w, isWordPart c = true := by
  cases h with
  | capitals hupper hdigits _ =>
      exact List.forall_mem_append.mpr ⟨fun c hc => isWordPart_of_isAsciiUpper (hupper c hc),
        fun c hc => isWordPart_of_isDecimal (hdigits c hc)⟩
  | small hupper _ hlower _ hdigits =>
      exact List.forall_mem_append.mpr ⟨List.forall_mem_append.mpr
        ⟨fun c hc => isWordPart_of_isAsciiUpper (hupper c hc),
          fun c hc => isWordPart_of_isAsciiLower (hlower c hc)⟩,
        fun c hc => isWordPart_of_isDecimal (hdigits c hc)⟩

inductive Reads : Text → List Text → Prop
  | nil : Reads [] []
  | skip {c : Char} {rest : Text} {ws : List Text} (hc : isWordPart c = false)
      (h : Reads rest ws) : Reads (c :: rest) ws
  | word {w rest : Text} {ws : List Text} (hw : IsWord w) (h : Reads rest ws) :
      Reads (w ++ rest) (w :: ws)

section WordLength

theorem not_of_mem_head?_dropWhile (p : Char → Bool) (t : Text) :
    ∀ c ∈ (t.dropWhile p).head?, p c = false := by
  intro c hc
  have hnot := List.head?_dropWhile_not p t
  rw [Option.mem_def.mp hc] at hnot
  exact hnot

theorem exists_runs (t : Text) : ∃ upper lower rest : Text, t = upper ++ (lower ++ rest) ∧
    (∀ c ∈ upper, isAsciiUpper c = true) ∧
    (∀ c ∈ (lower ++ rest).head?, isAsciiUpper c = false) ∧
    (∀ c ∈ lower, isAsciiLower c = true) ∧ (∀ c ∈ rest.head?, isAsciiLower c = false) := by
  let behind := t.dropWhile isAsciiUpper
  refine ⟨t.takeWhile isAsciiUpper, behind.takeWhile isAsciiLower, behind.dropWhile isAsciiLower,
    ?_, fun c hc => List.mem_takeWhile_imp hc, ?_, fun c hc => List.mem_takeWhile_imp hc,
    not_of_mem_head?_dropWhile _ _⟩
  · rw [List.takeWhile_append_dropWhile, List.takeWhile_append_dropWhile]
  · rw [List.takeWhile_append_dropWhile]
    exact not_of_mem_head?_dropWhile _ _

theorem takeWhile_append_of_head {p : Char → Bool} {run rest : Text}
    (hrun : ∀ c ∈ run, p c = true) (hrest : ∀ c ∈ rest.head?, p c = false) :
    (run ++ rest).takeWhile p = run := by
  rw [List.takeWhile_append_of_pos hrun]
  cases rest with
  | nil => rw [List.takeWhile_nil, List.append_nil]
  | cons c rest => rw [List.takeWhile_cons, hrest c rfl, if_neg Bool.false_ne_true, List.append_nil]

theorem wordLength_runs (hupper : ∀ c ∈ upper, isAsciiUpper c = true)
    (hbehind : ∀ c ∈ (lower ++ rest).head?, isAsciiUpper c = false)
    (hlower : ∀ c ∈ lower, isAsciiLower c = true)
    (hrest : ∀ c ∈ rest.head?, isAsciiLower c = false) :
    wordLength (upper ++ (lower ++ rest)) =
      if lower = [] then upper.length + (rest.takeWhile isDecimal).length
      else if upper.length ≤ 1 then
        upper.length + lower.length + (rest.takeWhile isDecimal).length
      else upper.length - 1 := by
  simp only [wordLength, takeWhile_append_of_head hupper hbehind, List.drop_left,
    takeWhile_append_of_head hlower hrest, beq_iff_eq, List.length_eq_zero_iff]
  split_ifs with hlower
  · rw [hlower, List.nil_append]
  · rfl
  · rfl

/-- A text starts with a word or with a character that belongs to none, unless it is empty. -/
theorem exists_word_or_skip (t : Text) :
    (∃ w rest, t = w ++ rest ∧ IsWord w ∧ wordLength t = w.length) ∨
      ((∀ c ∈ t.head?, isWordPart c = false) ∧ wordLength t = 0) := by
  obtain ⟨upper, lower, rest, rfl, hupper, hbehind, hlower, hrest⟩ := exists_runs t
  have hdigits : ∀ c ∈ rest.takeWhile isDecimal, isDecimal c = true :=
    fun c hc => List.mem_takeWhile_imp hc
  have hsplit : rest.takeWhile isDecimal ++ rest.dropWhile isDecimal = rest :=
    List.takeWhile_append_dropWhile
  rw [wordLength_runs hupper hbehind hlower hrest]
  split_ifs with hnone hone
  · subst hnone
    rw [List.nil_append] at hbehind ⊢
    by_cases hempty : upper ++ rest.takeWhile isDecimal = []
    · obtain ⟨rfl, hnodigits⟩ := List.append_eq_nil_iff.mp hempty
      refine Or.inr ⟨fun c hc => isWordPart_eq_false_iff.mpr ⟨hbehind c hc, hrest c hc, ?_⟩, ?_⟩
      · rw [List.nil_append, ← hsplit, hnodigits, List.nil_append] at hc
        exact not_of_mem_head?_dropWhile _ _ c hc
      · rw [hnodigits]
        rfl
    · refine Or.inl ⟨upper ++ rest.takeWhile isDecimal, rest.dropWhile isDecimal, ?_,
        .capitals hupper hdigits hempty, List.length_append.symm⟩
      rw [List.append_assoc, hsplit]
  · refine Or.inl ⟨upper ++ lower ++ rest.takeWhile isDecimal, rest.dropWhile isDecimal, ?_,
      .small hupper hone hlower hnone hdigits, ?_⟩
    · rw [List.append_assoc, List.append_assoc, hsplit]
    · rw [List.length_append, List.length_append]
  · -- the last of several capitals starts the next word
    have hne : upper ≠ [] := List.ne_nil_of_length_pos (by omega)
    have hcapitals : ∀ c ∈ upper.dropLast, isAsciiUpper c = true :=
      fun c hc => hupper c (List.dropLast_subset upper hc)
    have hword : IsWord (upper.dropLast ++ []) := by
      refine .capitals hcapitals (List.forall_mem_nil _) (List.ne_nil_of_length_pos ?_)
      rw [List.append_nil, List.length_dropLast]
      omega
    rw [List.append_nil] at hword
    refine Or.inl ⟨upper.dropLast, upper.getLast hne :: (lower ++ rest), ?_, hword,
      List.length_dropLast.symm⟩
    rw [List.append_cons, List.dropLast_append_getLast hne]

end WordLength

section Words

theorem words_cons_of_skip (hc : isWordPart c = false) (rest : Text) :
    words (c :: rest) = words rest := by
  have hzero : wordLength (c :: rest) = 0 := by
    rcases exists_word_or_skip (c :: rest) with ⟨w, after, hsplit, hw, -⟩ | ⟨-, hzero⟩
    · obtain ⟨x, others, rfl⟩ := List.exists_cons_of_ne_nil hw.ne_nil
      obtain ⟨rfl, -⟩ := List.cons.inj hsplit
      rw [hw.isWordPart c List.mem_cons_self] at hc
      cases hc
    · exact hzero
  rw [words]
  simp only [hzero, beq_self_eq_true, if_true]

theorem words_append_of_wordLength (hne : w ≠ []) (h : wordLength (w ++ rest) = w.length) :
    words (w ++ rest) = w :: words rest := by
  obtain ⟨c, others, rfl⟩ := List.exists_cons_of_ne_nil hne
  rw [List.cons_append] at h ⊢
  rw [words]
  simp only [h]
  rw [if_neg (by simp), ← List.cons_append, List.take_left, List.length_cons,
    Nat.add_sub_cancel, List.drop_left]

/-- A word is read as one where no character of a word follows it. -/
theorem words_append_of_isWord (hw : IsWord w) (hrest : ∀ c ∈ rest.head?, isWordPart c = false) :
    words (w ++ rest) = w :: words rest := by
  have hbehind {digits : Text} (hdigits : ∀ c ∈ digits, isDecimal c = true) :
      ∃ behind : Text, behind = digits ++ rest ∧ behind.takeWhile isDecimal = digits ∧
        ∀ c ∈ behind.head?, isAsciiUpper c = false ∧ isAsciiLower c = false := by
    refine ⟨digits ++ rest, rfl, takeWhile_append_of_head hdigits fun c hc =>
      (isWordPart_eq_false_iff.mp (hrest c hc)).2.2, ?_⟩
    cases digits with
    | nil =>
        intro c hc
        obtain ⟨hupper, hlower, -⟩ := isWordPart_eq_false_iff.mp (hrest c hc)
        exact ⟨hupper, hlower⟩
    | cons d digits =>
        intro c hc
        obtain rfl : d = c := Option.some.inj hc
        exact Bool.or_eq_false_iff.mp (isAsciiLetter_of_isDecimal (hdigits d List.mem_cons_self))
  apply words_append_of_wordLength hw.ne_nil
  cases hw with
  | @capitals upper digits hupper hdigits _ =>
      obtain ⟨behind, hsplit, htake, hhead⟩ := hbehind hdigits
      have hlength : wordLength (upper ++ ([] ++ behind)) = _ :=
        wordLength_runs hupper (fun c hc => (hhead c hc).1) (List.forall_mem_nil _)
          fun c hc => (hhead c hc).2
      rw [if_pos rfl, htake, List.nil_append, hsplit] at hlength
      rw [List.append_assoc, List.length_append, hlength]
  | small hupper hone hlower hne hdigits =>
      obtain ⟨behind, hsplit, htake, hhead⟩ := hbehind hdigits
      obtain ⟨x, others, rfl⟩ := List.exists_cons_of_ne_nil hne
      have hstart : ∀ c ∈ (x :: others ++ behind).head?, isAsciiUpper c = false := by
        intro c hc
        obtain rfl : x = c := Option.some.inj hc
        exact isAsciiUpper_of_isAsciiLower (hlower x List.mem_cons_self)
      have hlength := wordLength_runs hupper hstart hlower fun c hc => (hhead c hc).2
      rw [if_neg hne, if_pos hone, htake, hsplit] at hlength
      rw [List.append_assoc, List.append_assoc, hlength, List.length_append, List.length_append]

theorem reads_words (t : Text) : Reads t (words t) := by
  induction hlength : t.length using Nat.strong_induction_on generalizing t with
  | _ n ih =>
      subst hlength
      rcases exists_word_or_skip t with ⟨w, rest, rfl, hw, hwordLength⟩ | ⟨hskip, -⟩
      · have hpos : 0 < w.length := List.length_pos_iff.mpr hw.ne_nil
        rw [words_append_of_wordLength hw.ne_nil hwordLength]
        exact .word hw (ih rest.length (by rw [List.length_append]; omega) rest rfl)
      · cases t with
        | nil =>
            rw [words]
            exact .nil
        | cons c rest =>
            rw [words_cons_of_skip (hskip c rfl)]
            exact .skip (hskip c rfl) (ih rest.length (Nat.lt_succ_self _) rest rfl)

end Words

section Reading

/-- No character of a word is lost by a reading. -/
theorem Reads.flatten_eq (h : Reads t ws) : ws.flatten = t.filter isWordPart := by
  induction h with
  | nil => rfl
  | skip hc _ ih => rw [ih, List.filter_cons_of_neg (by simp [hc])]
  | word hw _ ih =>
      rw [List.flatten_cons, ih, List.filter_append, List.filter_eq_self.mpr hw.isWordPart]

theorem Reads.isWord (h : Reads t ws) : ∀ w ∈ ws, IsWord w := by
  induction h with
  | nil => exact List.forall_mem_nil _
  | skip _ _ ih => exact ih
  | word hw _ ih => exact List.forall_mem_cons.mpr ⟨hw, ih⟩

/-- A text that starts with a character of a word starts with its first word. -/
theorem Reads.exists_cons (h : Reads (c :: rest) ws) (hc : isWordPart c = true) :
    ∃ w after others, c :: rest = w ++ after ∧ ws = w :: others ∧ IsWord w ∧
      Reads after others := by
  generalize hsplit : c :: rest = t at h
  cases h with
  | nil => cases hsplit
  | skip hskip _ =>
      obtain ⟨rfl, -⟩ := List.cons.inj hsplit
      rw [hc] at hskip
      cases hskip
  | word hw h => exact ⟨_, _, _, rfl, rfl, hw, h⟩

end Reading

end Identifier

end LineLint
