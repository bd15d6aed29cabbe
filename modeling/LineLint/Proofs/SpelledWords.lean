import LineLint.Proofs.ConvertedNames

/-!
# Words in the spelling of a convention

A name of one word is converted by spelling the word anew. So a conversion comes to a given word
exactly if the convention spells it that way and the name is that word in one of the spellings,
with nothing behind it that belongs to a word.
-/

namespace LineLint

namespace Convention

open Identifier

variable {convention other : Convention} {c : Char} {t w word : Text}

def spell : Convention → Text → Text
  | pascal => capitalize
  | camel => fun w => w.map lowerChar
  | snake => fun w => w.map lowerChar
  | upperSnake => fun w => w.map upperAscii

theorem recases_spell (convention : Convention) (h : ∀ c ∈ w, isWordPart c = true) :
    Recases w (convention.spell w) := by
  cases convention with
  | pascal => exact .capitalize h
  | camel => exact .map_lowerChar h
  | snake => exact .map_lowerChar h
  | upperSnake => exact .map_upperAscii h

section Respelling

theorem lowerChar_lowerChar_of_isWordPart (h : isWordPart c = true) :
    lowerChar (lowerChar c) = lowerChar c := by
  rcases Bool.or_eq_true_iff.mp h with hletter | hdecimal
  · exact lowerChar_of_isAsciiLower (isAsciiLower_lowerChar hletter)
  · rw [lowerChar_of_isDecimal hdecimal, lowerChar_of_isDecimal hdecimal]

theorem lowerChar_upperAscii_of_isWordPart (h : isWordPart c = true) :
    lowerChar (upperAscii c) = lowerChar c := by
  rcases Bool.or_eq_true_iff.mp h with hletter | hdecimal
  · exact lowerChar_upperAscii hletter
  · rw [upperAscii_of_isDecimal hdecimal]

theorem upperAscii_lowerChar_of_isWordPart (h : isWordPart c = true) :
    upperAscii (lowerChar c) = upperAscii c := by
  rcases Bool.or_eq_true_iff.mp h with hletter | hdecimal
  · exact upperAscii_lowerChar hletter
  · rw [lowerChar_of_isDecimal hdecimal]

variable (h : ∀ c ∈ w, isWordPart c = true)

include h in
theorem map_lowerChar_map_lowerChar : (w.map lowerChar).map lowerChar = w.map lowerChar := by
  rw [List.map_map]
  exact List.map_congr_left fun c hc => lowerChar_lowerChar_of_isWordPart (h c hc)

theorem map_lowerChar_spell (convention : Convention) (h : ∀ c ∈ w, isWordPart c = true) :
    (convention.spell w).map lowerChar = w.map lowerChar := by
  cases convention with
  | pascal =>
      cases w with
      | nil => rfl
      | cons c rest =>
          obtain ⟨hc, hrest⟩ := List.forall_mem_cons.mp h
          change lowerChar (upperAscii c) :: (rest.map lowerChar).map lowerChar = _
          rw [lowerChar_upperAscii_of_isWordPart hc, map_lowerChar_map_lowerChar hrest]
          rfl
  | camel => exact map_lowerChar_map_lowerChar h
  | snake => exact map_lowerChar_map_lowerChar h
  | upperSnake =>
      change (w.map upperAscii).map lowerChar = _
      rw [List.map_map]
      exact List.map_congr_left fun c hc => lowerChar_upperAscii_of_isWordPart (h c hc)

theorem spell_map_lowerChar (convention : Convention) (h : ∀ c ∈ w, isWordPart c = true) :
    convention.spell (w.map lowerChar) = convention.spell w := by
  cases convention with
  | pascal =>
      cases w with
      | nil => rfl
      | cons c rest =>
          obtain ⟨hc, hrest⟩ := List.forall_mem_cons.mp h
          change upperAscii (lowerChar c) :: (rest.map lowerChar).map lowerChar = _
          rw [upperAscii_lowerChar_of_isWordPart hc, map_lowerChar_map_lowerChar hrest]
          rfl
  | camel => exact map_lowerChar_map_lowerChar h
  | snake => exact map_lowerChar_map_lowerChar h
  | upperSnake =>
      change (w.map lowerChar).map upperAscii = _
      rw [List.map_map]
      exact List.map_congr_left fun c hc => upperAscii_lowerChar_of_isWordPart (h c hc)

theorem spell_spell (convention other : Convention) (h : ∀ c ∈ w, isWordPart c = true) :
    convention.spell (other.spell w) = convention.spell w := by
  rw [← spell_map_lowerChar convention (recases_spell other h).isWordPart,
    map_lowerChar_spell other h, spell_map_lowerChar convention h]

end Respelling

section Letters

theorem eq_nil_of_isDecimal_of_isAsciiLetter (hdigits : ∀ c ∈ t, isDecimal c = true)
    (hletters : ∀ c ∈ t, isAsciiLetter c = true) : t = [] := by
  refine List.eq_nil_iff_forall_not_mem.mpr fun c hc => ?_
  have hnot := isAsciiLetter_of_isDecimal (hdigits c hc)
  rw [hletters c hc] at hnot
  cases hnot

/-- A word of letters is in one of the spellings. -/
theorem exists_spell_eq_of_isWord (hw : IsWord w) (hletters : ∀ c ∈ w, isAsciiLetter c = true) :
    ∃ convention : Convention, convention.spell w = w := by
  cases hw with
  | capitals hupper hdigits _ =>
      obtain rfl := eq_nil_of_isDecimal_of_isAsciiLetter hdigits
        (List.forall_mem_append.mp hletters).2
      rw [List.append_nil]
      exact ⟨upperSnake, map_upperAscii_of_isAsciiUpper hupper⟩
  | @small upper lower digits hupper hone hlower _ hdigits =>
      obtain rfl := eq_nil_of_isDecimal_of_isAsciiLetter hdigits
        (List.forall_mem_append.mp hletters).2
      rw [List.append_nil]
      match upper, hone with
      | [], _ => exact ⟨snake, map_lowerChar_of_isAsciiLower hlower⟩
      | [x], _ =>
          refine ⟨pascal, ?_⟩
          change upperAscii x :: lower.map lowerChar = x :: lower
          rw [upperAscii_of_isAsciiUpper (hupper x List.mem_cons_self),
            map_lowerChar_of_isAsciiLower hlower]

theorem isWord_spell (convention : Convention) (hne : w ≠ [])
    (hletters : ∀ c ∈ w, isAsciiLetter c = true) : IsWord (convention.spell w) := by
  have hlower {w : Text} (hletters : ∀ c ∈ w, isAsciiLetter c = true) :
      ∀ c ∈ w.map lowerChar, isAsciiLower c = true :=
    List.forall_mem_map.mpr fun c hc => isAsciiLower_lowerChar (hletters c hc)
  have hsmall : IsWord (w.map lowerChar) := by
    have hword := IsWord.small (List.forall_mem_nil _) (Nat.zero_le 1) (hlower hletters)
      (by simpa using hne) (List.forall_mem_nil _)
    simpa using hword
  have hcapitals {w : Text} (hne : w ≠ []) (hletters : ∀ c ∈ w, isAsciiLetter c = true) :
      IsWord (w.map upperAscii) := by
    have hword := IsWord.capitals
      (List.forall_mem_map.mpr fun c hc => isAsciiUpper_upperAscii (hletters c hc))
      (List.forall_mem_nil _) (by simpa using hne)
    simpa using hword
  cases convention with
  | pascal =>
      obtain ⟨c, rest, rfl⟩ := List.exists_cons_of_ne_nil hne
      obtain ⟨hc, hrest⟩ := List.forall_mem_cons.mp hletters
      cases rest with
      | nil => exact hcapitals (List.cons_ne_nil c []) hletters
      | cons x rest =>
          have hword := IsWord.small (List.forall_mem_singleton.mpr (isAsciiUpper_upperAscii hc))
            (Nat.le_refl 1) (hlower hrest) (List.cons_ne_nil _ _) (List.forall_mem_nil _)
          simpa [spell, capitalize] using hword
  | camel => exact hsmall
  | snake => exact hsmall
  | upperSnake => exact hcapitals hne hletters

end Letters

section Conversion

theorem leadingUnderscores_of_head (h : ∃ c ∈ t.head?, isAsciiLetter c = true) :
    leadingUnderscores t = [] := by
  obtain ⟨c, hc, hletter⟩ := h
  obtain ⟨rest, rfl⟩ := List.head?_eq_some_iff.mp hc
  refine List.takeWhile_cons_of_neg ?_
  rw [beq_iff_eq]
  rintro rfl
  revert hletter
  decide

theorem dropUnderscores_of_head (h : ∃ c ∈ t.head?, isAsciiLetter c = true) :
    dropUnderscores t = t := by
  have hsplit : leadingUnderscores t ++ dropUnderscores t = t := List.takeWhile_append_dropWhile
  rwa [leadingUnderscores_of_head h, List.nil_append] at hsplit

theorem convert_of_words_eq (hleading : leadingUnderscores t = []) (hwords : words t = [w]) :
    convention.convert t = convention.spell w := by
  have hw : IsWord w := (reads_words t).isWord w (hwords ▸ List.mem_singleton_self w)
  cases convention with
  | pascal =>
      change (words t).flatMap capitalize = capitalize w
      rw [hwords, List.flatMap_singleton]
  | camel =>
      obtain ⟨c, rest, rfl⟩ := List.exists_cons_of_ne_nil hw.ne_nil
      change toCamel t = _
      rw [toCamel, toPascal_of_words_eq hwords]
      change lowerChar (upperAscii c) :: (rest.map lowerChar ++ []) = _
      rw [lowerChar_upperAscii_of_isWordPart (hw.isWordPart c List.mem_cons_self),
        List.append_nil]
      rfl
  | snake =>
      change leadingUnderscores t ++ Text.joinWith ['_'] ((words t).map _) = _
      rw [hleading, hwords]
      simp [spell, Text.joinWith]
  | upperSnake =>
      change leadingUnderscores t ++ Text.joinWith ['_'] ((words t).map _) = _
      rw [hleading, hwords]
      simp [spell, Text.joinWith]

theorem ne_nil_of_plain (hplain : shaped isAsciiLetter isAsciiLower word = true) : word ≠ [] := by
  rintro rfl
  cases hplain

theorem isAsciiLetter_of_plain (hplain : shaped isAsciiLetter isAsciiLower word = true) :
    ∀ c ∈ word, isAsciiLetter c = true := by
  obtain ⟨c, rest, rfl⟩ := List.exists_cons_of_ne_nil (ne_nil_of_plain hplain)
  obtain ⟨hc, hrest⟩ := Bool.and_eq_true_iff.mp hplain
  refine List.forall_mem_cons.mpr ⟨hc, fun x hx => ?_⟩
  exact isAsciiLetter_of_isAsciiLower (List.all_eq_true.mp hrest x hx)

theorem eq_nil_of_flatMap_capitalize {ws : List Text} (hws : ∀ w ∈ ws, IsWord w)
    (h : ∀ c ∈ ws.flatMap capitalize, isAsciiLower c = true) : ws = [] := by
  cases ws with
  | nil => rfl
  | cons w ws =>
      have hw := hws w List.mem_cons_self
      obtain ⟨c, rest, rfl⟩ := List.exists_cons_of_ne_nil hw.ne_nil
      have hlower : isAsciiLower (upperAscii c) = true := h _ (by simp [capitalize])
      rcases Bool.or_eq_true_iff.mp (hw.isWordPart c List.mem_cons_self) with hletter | hdecimal
      · have hupper := isAsciiUpper_upperAscii hletter
        rw [isAsciiUpper_of_isAsciiLower hlower] at hupper
        cases hupper
      · rw [upperAscii_of_isDecimal hdecimal] at hlower
        have hnot := isAsciiLetter_of_isDecimal hdecimal
        rw [isAsciiLetter_of_isAsciiLower hlower] at hnot
        cases hnot

theorem eq_nil_of_not_mem_joinWith {ws : List Text} (h : '_' ∉ Text.joinWith ['_'] (w :: ws)) :
    ws = [] := by
  cases ws with
  | nil => rfl
  | cons other ws => exact absurd (by simp [Text.joinWith_cons]) h

/-- What is converted to a word, with no capital but possibly its first letter, is one word. -/
theorem exists_words_eq_of_convert (hplain : shaped isAsciiLetter isAsciiLower word = true)
    (hfirst : ∃ c ∈ t.head?, isAsciiLetter c = true) (h : convention.convert t = word) :
    ∃ w, words t = [w] := by
  rw [← dropUnderscores_of_head hfirst] at hfirst
  obtain ⟨c, rest, ws, -, hwords⟩ := exists_words_eq_cons hfirst
  have hws : ∀ w ∈ ws, IsWord w := fun w hw =>
    (reads_words t).isWord w (hwords ▸ List.mem_cons_of_mem _ hw)
  obtain ⟨first, others, rfl⟩ := List.exists_cons_of_ne_nil (ne_nil_of_plain hplain)
  have hothers : ∀ x ∈ others, isAsciiLower x = true :=
    List.all_eq_true.mp (Bool.and_eq_true_iff.mp hplain).2
  have hcapitalized {x : Char} (hsplit : x :: (rest.map lowerChar ++ ws.flatMap capitalize) =
      first :: others) : ws = [] := by
    obtain ⟨-, hbehind⟩ := List.cons.inj hsplit
    exact eq_nil_of_flatMap_capitalize hws fun x hx =>
      hothers x (hbehind ▸ List.mem_append_right _ hx)
  have hjoined {f : Char → Char} (hjoin : leadingUnderscores t ++
      Text.joinWith ['_'] ((words t).map (·.map f)) = first :: others) : ws = [] := by
    have hnone : '_' ∉ Text.joinWith ['_'] ((c :: rest).map f :: ws.map (·.map f)) := by
      intro hmem
      have hword : '_' ∈ first :: others := by
        rw [← hjoin, hwords]
        exact List.mem_append_right _ hmem
      exact absurd (isAsciiLetter_of_plain hplain '_' hword) (by decide)
    exact List.map_eq_nil_iff.mp (eq_nil_of_not_mem_joinWith hnone)
  refine ⟨c :: rest, ?_⟩
  rw [hwords]
  congr 1
  cases convention with
  | pascal => exact hcapitalized ((toPascal_of_words_eq hwords).symm.trans h)
  | camel =>
      change toCamel t = _ at h
      rw [toCamel, toPascal_of_words_eq hwords] at h
      exact hcapitalized h
  | snake => exact hjoined h
  | upperSnake => exact hjoined h

theorem holds_iff_spell_eq (hplain : shaped isAsciiLetter isAsciiLower word = true) :
    convention.holds word = true ↔ convention.spell word = word := by
  cases word with
  | nil => cases hplain
  | cons c rest =>
  obtain ⟨hc, hrest⟩ := Bool.and_eq_true_iff.mp hplain
  rw [List.all_eq_true] at hrest
  have hlower : rest.map lowerChar = rest := map_lowerChar_of_isAsciiLower hrest
  have halphanumeric : rest.all isAsciiAlphanumeric = true :=
    List.all_eq_true.mpr fun x hx =>
      isAsciiAlphanumeric_of_isAsciiLetter (isAsciiLetter_of_isAsciiLower (hrest x hx))
  have hcore : dropUnderscores (c :: rest) = c :: rest :=
    dropUnderscores_of_head ⟨c, rfl, hc⟩
  cases convention with
  | pascal =>
      change (isAsciiUpper c && rest.all isAsciiAlphanumeric) = true ↔
        upperAscii c :: rest.map lowerChar = c :: rest
      rw [halphanumeric, Bool.and_true, hlower, List.cons.injEq, and_iff_left rfl,
        isAsciiUpper_iff_upperAscii_eq hc]
  | camel =>
      change (isAsciiLower c && rest.all isAsciiAlphanumeric) = true ↔
        lowerChar c :: rest.map lowerChar = c :: rest
      rw [halphanumeric, Bool.and_true, hlower, List.cons.injEq, and_iff_left rfl,
        isAsciiLower_iff_lowerChar_eq hc]
  | snake =>
      have hsmall : (rest.all fun x => isAsciiLower x || isAsciiDigit x || x == '_') = true :=
        List.all_eq_true.mpr fun x hx => by rw [hrest x hx, Bool.true_or, Bool.true_or]
      change isSnake (c :: rest) = true ↔ lowerChar c :: rest.map lowerChar = c :: rest
      rw [isSnake, hcore, shaped, hsmall, Bool.and_true, hlower, List.cons.injEq, and_iff_left rfl,
        isAsciiLower_iff_lowerChar_eq hc]
  | upperSnake =>
      have hcapital : (rest.all fun x => isAsciiUpper x || isAsciiDigit x || x == '_') = true ↔
          rest.map upperAscii = rest := by
        cases rest with
        | nil => exact iff_of_true rfl rfl
        | cons x rest =>
            have hx := hrest x List.mem_cons_self
            refine iff_of_false (fun hall => ?_) fun hmap => ?_
            · obtain ⟨hother, -⟩ := Bool.and_eq_true_iff.mp hall
              exact Bool.false_ne_true ((not_capital_of_isAsciiLower hx).symm.trans hother)
            · obtain ⟨heq, -⟩ := List.cons.inj hmap
              rw [← isAsciiUpper_iff_upperAscii_eq (isAsciiLetter_of_isAsciiLower hx),
                isAsciiUpper_of_isAsciiLower hx] at heq
              cases heq
      change isUpperSnake (c :: rest) = true ↔ upperAscii c :: rest.map upperAscii = c :: rest
      rw [isUpperSnake, hcore, shaped, Bool.and_eq_true, hcapital, List.cons.injEq,
        isAsciiUpper_iff_upperAscii_eq hc]

/-- The only word of a name that starts with a letter stands at its start. -/
theorem exists_append_of_words_eq (hfirst : ∃ c ∈ t.head?, isAsciiLetter c = true)
    (hwords : words t = [w]) :
    IsWord w ∧ ∃ back : Text, (∀ c ∈ back, isWordPart c = false) ∧ t = w ++ back := by
  obtain ⟨c, hc, hletter⟩ := hfirst
  obtain ⟨rest, rfl⟩ := List.head?_eq_some_iff.mp hc
  obtain ⟨w', back, others, hsplit, hall, hw, hback⟩ :=
    (reads_words _).exists_cons (isWordPart_of_isAsciiLetter hletter)
  obtain ⟨rfl, rfl⟩ := List.cons.inj (hwords.symm.trans hall)
  have hnone : back.filter isWordPart = [] := hback.flatten_eq.symm
  exact ⟨hw, back, fun x hx => by simpa using List.filter_eq_nil_iff.mp hnone x hx, hsplit⟩

theorem isAsciiLetter_of_mem_of_spell (hw : ∀ c ∈ w, isWordPart c = true)
    (hletters : ∀ c ∈ convention.spell w, isAsciiLetter c = true) :
    ∀ c ∈ w, isAsciiLetter c = true := by
  intro c hc
  have hmem : lowerChar c ∈ (convention.spell w).map lowerChar := by
    rw [map_lowerChar_spell convention hw]
    exact List.mem_map_of_mem hc
  obtain ⟨x, hx, heq⟩ := List.mem_map.mp hmem
  have hlower : isAsciiLower (lowerChar c) = true := heq ▸ isAsciiLower_lowerChar (hletters x hx)
  refine (Bool.or_eq_true_iff.mp (hw c hc)).resolve_right fun hdecimal => ?_
  have hnot := isAsciiLetter_of_isDecimal hdecimal
  rw [← lowerChar_of_isDecimal hdecimal, isAsciiLetter_of_isAsciiLower hlower] at hnot
  cases hnot

/-- A conversion comes to such a word exactly if the convention asks for it and the name is the
word in one of the spellings, with nothing behind it that belongs to a word. -/
theorem convert_eq_iff (hplain : shaped isAsciiLetter isAsciiLower word = true)
    (hfirst : ∃ c ∈ t.head?, isAsciiLetter c = true) :
    convention.convert t = word ↔ convention.holds word = true ∧
      ∃ (other : Convention) (back : Text), (∀ c ∈ back, isWordPart c = false) ∧
        t = other.spell word ++ back := by
  have hne := ne_nil_of_plain hplain
  have hletters := isAsciiLetter_of_plain hplain
  have hparts : ∀ c ∈ word, isWordPart c = true :=
    fun c hc => isWordPart_of_isAsciiLetter (hletters c hc)
  have hleading := leadingUnderscores_of_head hfirst
  rw [holds_iff_spell_eq hplain]
  constructor
  · intro h
    obtain ⟨w, hwords⟩ := exists_words_eq_of_convert hplain hfirst h
    obtain ⟨hw, back, hback, hsplit⟩ := exists_append_of_words_eq hfirst hwords
    have hspell : convention.spell w = word := (convert_of_words_eq hleading hwords).symm.trans h
    obtain ⟨other, hother⟩ := exists_spell_eq_of_isWord hw
      (isAsciiLetter_of_mem_of_spell hw.isWordPart (hspell ▸ hletters))
    refine ⟨?_, other, back, hback, ?_⟩
    · rw [← hspell, spell_spell convention convention hw.isWordPart]
    · rw [← hspell, spell_spell other convention hw.isWordPart, hother, hsplit]
  · rintro ⟨hholds, other, back, hback, rfl⟩
    have hwords : words (other.spell word ++ back) = [other.spell word] := by
      rw [words_append_of_isWord (isWord_spell other hne hletters)
        fun c hc => hback c (List.mem_of_mem_head? hc), ← List.append_nil back,
        words_append_of_skip hback, words]
    rw [convert_of_words_eq hleading hwords, spell_spell convention other hparts, hholds]

end Conversion

end Convention

end LineLint
