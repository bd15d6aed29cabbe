import LineLint.Proofs.IdentifierWords
import LineLint.Proofs.TextCharacters
import LineLint.Proofs.TextSplit

/-!
# Converted names

A conversion keeps each character that belongs to a word, in its place and up to letter case, and
puts nothing but underscores between them. The name that comes out follows the convention if the
characters of the old one are those that names are made of and a letter is the first behind the
leading underscores.
-/

namespace LineLint

namespace Text

theorem fold_append (s t : Text) : fold (s ++ t) = fold s ++ fold t := List.flatMap_append

theorem forall_mem_joinWith {separator : Text} {parts : List Text} {p : Char → Prop}
    (hseparator : ∀ c ∈ separator, p c) (hparts : ∀ part ∈ parts, ∀ c ∈ part, p c) :
    ∀ c ∈ joinWith separator parts, p c := by
  intro c hc
  by_contra hnot
  exact not_mem_joinWith (fun hmem => hnot (hseparator c hmem))
    (fun part hpart hmem => hnot (hparts part hpart c hmem)) hc

theorem filter_joinWith {separator : Text} {p : Char → Bool} (h : separator.filter p = [])
    (parts : List Text) : (joinWith separator parts).filter p = parts.flatten.filter p := by
  cases parts with
  | nil => rfl
  | cons first rest =>
      rw [joinWith_cons, List.flatten_cons, List.filter_append, List.filter_append]
      congr 1
      induction rest with
      | nil => rfl
      | cons part rest ih =>
          rw [List.flatMap_cons, List.flatten_cons, List.filter_append, List.filter_append,
            List.filter_append, h, List.nil_append, ih]

end Text

namespace Identifier

variable {c : Char} {t w old new old' new' : Text} {ws : List Text}

section LetterCase

theorem isWordPart_lowerChar (h : isWordPart c = true) : isWordPart (lowerChar c) = true := by
  rcases Bool.or_eq_true_iff.mp h with hletter | hdecimal
  · exact isWordPart_of_isAsciiLower (isAsciiLower_lowerChar hletter)
  · rwa [lowerChar_of_isDecimal hdecimal]

theorem isWordPart_upperAscii (h : isWordPart c = true) : isWordPart (upperAscii c) = true := by
  rcases Bool.or_eq_true_iff.mp h with hletter | hdecimal
  · exact isWordPart_of_isAsciiUpper (isAsciiUpper_upperAscii hletter)
  · rwa [upperAscii_of_isDecimal hdecimal]

theorem foldChar_lowerChar (h : isWordPart c = true) :
    Text.foldChar (lowerChar c) = Text.foldChar c := by
  rcases Bool.or_eq_true_iff.mp h with hletter | hdecimal
  · have hlower := isAsciiLower_lowerChar hletter
    rw [Text.foldChar_of_isAsciiLetter hletter, Text.foldChar_of_isAsciiLetter
      (isAsciiLetter_of_isAsciiLower hlower), lowerChar_of_isAsciiLower hlower]
  · rw [lowerChar_of_isDecimal hdecimal]

theorem foldChar_upperAscii (h : isWordPart c = true) :
    Text.foldChar (upperAscii c) = Text.foldChar c := by
  rcases Bool.or_eq_true_iff.mp h with hletter | hdecimal
  · have hupper := isAsciiUpper_upperAscii hletter
    rw [Text.foldChar_of_isAsciiLetter hletter, Text.foldChar_of_isAsciiLetter
      (isAsciiLetter_of_isAsciiUpper hupper), lowerChar_upperAscii hletter]
  · rw [upperAscii_of_isDecimal hdecimal]

end LetterCase

/-- A text of characters that belong to words, which differs from another one in case only. -/
structure Recases (old new : Text) : Prop where
  isWordPart : ∀ c ∈ new, isWordPart c = true
  fold_eq : Text.fold new = Text.fold old

namespace Recases

theorem nil : Recases [] [] := ⟨List.forall_mem_nil _, rfl⟩

theorem append (h : Recases old new) (h' : Recases old' new') :
    Recases (old ++ old') (new ++ new') where
  isWordPart := List.forall_mem_append.mpr ⟨h.isWordPart, h'.isWordPart⟩
  fold_eq := by rw [Text.fold_append, Text.fold_append, h.fold_eq, h'.fold_eq]

theorem trans (h : Recases old t) (h' : Recases t new) : Recases old new :=
  ⟨h'.isWordPart, h'.fold_eq.trans h.fold_eq⟩

theorem cons (h : Recases old new) {x y : Char} (hy : Identifier.isWordPart y = true)
    (hfold : Text.foldChar y = Text.foldChar x) : Recases (x :: old) (y :: new) where
  isWordPart := List.forall_mem_cons.mpr ⟨hy, h.isWordPart⟩
  fold_eq := by
    change Text.foldChar y ++ Text.fold new = Text.foldChar x ++ Text.fold old
    rw [hfold, h.fold_eq]

theorem refl (h : ∀ c ∈ t, Identifier.isWordPart c = true) : Recases t t := ⟨h, rfl⟩

theorem map {f : Char → Char}
    (hpart : ∀ c, Identifier.isWordPart c = true → Identifier.isWordPart (f c) = true)
    (hfold : ∀ c, Identifier.isWordPart c = true → Text.foldChar (f c) = Text.foldChar c)
    (h : ∀ c ∈ t, Identifier.isWordPart c = true) : Recases t (t.map f) := by
  induction t with
  | nil => exact nil
  | cons c rest ih =>
      obtain ⟨hc, hrest⟩ := List.forall_mem_cons.mp h
      exact (ih hrest).cons (hpart c hc) (hfold c hc)

theorem map_lowerChar (h : ∀ c ∈ t, Identifier.isWordPart c = true) :
    Recases t (t.map lowerChar) :=
  map (fun _ => isWordPart_lowerChar) (fun _ => foldChar_lowerChar) h

theorem map_upperAscii (h : ∀ c ∈ t, Identifier.isWordPart c = true) :
    Recases t (t.map upperAscii) :=
  map (fun _ => isWordPart_upperAscii) (fun _ => foldChar_upperAscii) h

theorem capitalize (h : ∀ c ∈ t, Identifier.isWordPart c = true) :
    Recases t (Identifier.capitalize t) := by
  cases t with
  | nil => exact nil
  | cons c rest =>
      obtain ⟨hc, hrest⟩ := List.forall_mem_cons.mp h
      exact (map_lowerChar hrest).cons (isWordPart_upperAscii hc) (foldChar_upperAscii hc)

theorem flatMap {f : Text → Text} (h : ∀ w ∈ ws, Recases w (f w)) :
    Recases ws.flatten (ws.flatMap f) := by
  induction ws with
  | nil => exact nil
  | cons w ws ih =>
      obtain ⟨hw, hws⟩ := List.forall_mem_cons.mp h
      exact hw.append (ih hws)

theorem flatMap_words {f : Text → Text}
    (h : ∀ w, (∀ c ∈ w, Identifier.isWordPart c = true) → Recases w (f w)) (t : Text) :
    Recases (t.filter Identifier.isWordPart) ((words t).flatMap f) := by
  have hreads := reads_words t
  rw [← hreads.flatten_eq]
  exact flatMap fun w hw => h w (hreads.isWord w hw).isWordPart

end Recases

theorem recases_toPascal (t : Text) : Recases (t.filter isWordPart) (toPascal t) :=
  .flatMap_words (fun _ => .capitalize) t

theorem recases_toCamel (t : Text) : Recases (t.filter isWordPart) (toCamel t) := by
  have hpascal := recases_toPascal t
  unfold toCamel
  split
  · rename_i hnil
    exact hnil ▸ hpascal
  · rename_i c rest hcons
    rw [hcons] at hpascal
    obtain ⟨hc, hrest⟩ := List.forall_mem_cons.mp hpascal.isWordPart
    exact hpascal.trans ((Recases.refl hrest).cons (isWordPart_lowerChar hc) (foldChar_lowerChar hc))

theorem eq_of_mem_leadingUnderscores (h : c ∈ leadingUnderscores t) : c = '_' :=
  beq_iff_eq.mp (List.mem_takeWhile_imp (p := (· == '_')) h)

theorem filter_leadingUnderscores {p : Char → Bool} (h : p '_' = false) (t : Text) :
    (leadingUnderscores t).filter p = [] :=
  List.filter_eq_nil_iff.mpr fun c hc => by rw [eq_of_mem_leadingUnderscores hc, h]; decide

theorem filter_dropUnderscores {p : Char → Bool} (h : p '_' = false) (t : Text) :
    (dropUnderscores t).filter p = t.filter p := by
  have hsplit : leadingUnderscores t ++ dropUnderscores t = t := List.takeWhile_append_dropWhile
  rw [← hsplit, List.filter_append, filter_leadingUnderscores h, List.nil_append, hsplit]

theorem recases_joinWords {f : Char → Char}
    (h : ∀ w, (∀ c ∈ w, isWordPart c = true) → Recases w (w.map f)) (t : Text) :
    Recases (t.filter isWordPart)
      ((leadingUnderscores t ++ Text.joinWith ['_'] ((words t).map (·.map f))).filter
        isWordPart) := by
  have hwords : Recases (t.filter isWordPart) ((words t).flatMap (·.map f)) := .flatMap_words h t
  rw [List.filter_append, filter_leadingUnderscores (by decide), List.nil_append,
    Text.filter_joinWith (by decide), ← List.flatMap_def,
    List.filter_eq_self.mpr hwords.isWordPart]
  exact hwords

/-- A conversion loses no character that belongs to a word. -/
theorem recases_convert (convention : Convention) (t : Text) :
    Recases (t.filter isWordPart) ((convention.convert t).filter isWordPart) := by
  have hall {new : Text} (h : Recases (t.filter isWordPart) new) :
      Recases (t.filter isWordPart) (new.filter isWordPart) := by
    rwa [List.filter_eq_self.mpr h.isWordPart]
  cases convention with
  | pascal => exact hall (recases_toPascal t)
  | camel => exact hall (recases_toCamel t)
  | snake => exact recases_joinWords (fun _ => .map_lowerChar) t
  | upperSnake => exact recases_joinWords (fun _ => .map_upperAscii) t

/-- Underscores are all that a conversion puts between words. -/
theorem isWordPart_or_eq_of_mem_convert {convention : Convention}
    (h : c ∈ convention.convert t) : isWordPart c = true ∨ c = '_' := by
  have hjoin {f : Char → Char} (hf : ∀ c, isWordPart c = true → isWordPart (f c) = true)
      (hc : c ∈ leadingUnderscores t ++ Text.joinWith ['_'] ((words t).map (·.map f))) :
      isWordPart c = true ∨ c = '_' := by
    rcases List.mem_append.mp hc with hc | hc
    · exact Or.inr (eq_of_mem_leadingUnderscores hc)
    · refine Text.forall_mem_joinWith (p := fun c => isWordPart c = true ∨ c = '_') ?_ ?_ c hc
      · exact fun c hc => Or.inr (List.mem_singleton.mp hc)
      · intro part hpart x hx
        obtain ⟨w, hw, rfl⟩ := List.mem_map.mp hpart
        obtain ⟨y, hy, rfl⟩ := List.mem_map.mp hx
        exact Or.inl (hf y (((reads_words t).isWord w hw).isWordPart y hy))
  cases convention with
  | pascal => exact Or.inl ((recases_toPascal t).isWordPart c h)
  | camel => exact Or.inl ((recases_toCamel t).isWordPart c h)
  | snake => exact hjoin (fun _ => isWordPart_lowerChar) h
  | upperSnake => exact hjoin (fun _ => isWordPart_upperAscii) h

section Conventions

theorem words_append_of_skip (h : ∀ x ∈ t, isWordPart x = false) (rest : Text) :
    words (t ++ rest) = words rest := by
  induction t with
  | nil => rfl
  | cons c t ih =>
      obtain ⟨hc, ht⟩ := List.forall_mem_cons.mp h
      rw [List.cons_append, words_cons_of_skip hc, ih ht]

theorem words_dropUnderscores (t : Text) : words (dropUnderscores t) = words t := by
  have hskip : ∀ x ∈ leadingUnderscores t, isWordPart x = false := by
    intro x hx
    rw [eq_of_mem_leadingUnderscores hx]
    decide
  rw [← words_append_of_skip hskip, leadingUnderscores, dropUnderscores,
    List.takeWhile_append_dropWhile]

theorem mem_of_mem_words (hw : w ∈ words t) (hc : c ∈ w) : c ∈ t := by
  have hmem : c ∈ (words t).flatten := List.mem_flatten.mpr ⟨w, hw, hc⟩
  rw [(reads_words t).flatten_eq] at hmem
  exact (List.mem_filter.mp hmem).1

/-- Where a letter is the first character behind the leading underscores, the first word starts
with it. -/
theorem exists_words_eq_cons (h : ∃ c ∈ (dropUnderscores t).head?, isAsciiLetter c = true) :
    ∃ c rest ws, isAsciiLetter c = true ∧ words t = (c :: rest) :: ws := by
  obtain ⟨c, hc, hletter⟩ := h
  obtain ⟨behind, hcore⟩ := List.head?_eq_some_iff.mp hc
  have hreads := reads_words (dropUnderscores t)
  rw [words_dropUnderscores, hcore] at hreads
  obtain ⟨w, after, others, hsplit, hwords, hw, -⟩ :=
    hreads.exists_cons (isWordPart_of_isAsciiLetter hletter)
  obtain ⟨x, rest, rfl⟩ := List.exists_cons_of_ne_nil hw.ne_nil
  obtain ⟨rfl, -⟩ := List.cons.inj hsplit
  exact ⟨c, rest, others, hletter, hwords⟩

theorem toPascal_of_words_eq {rest : Text} (h : words t = (c :: rest) :: ws) :
    toPascal t = upperAscii c :: (rest.map lowerChar ++ ws.flatMap capitalize) := by
  rw [toPascal, h]
  rfl

variable (hchars : ∀ x ∈ t, isAsciiAlphanumeric x = true ∨ x = '_')
  (hfirst : ∃ c ∈ (dropUnderscores t).head?, isAsciiLetter c = true)

include hchars in
theorem isAsciiAlphanumeric_of_mem_words (hw : w ∈ words t) (hc : c ∈ w) :
    isAsciiAlphanumeric c = true := by
  refine (hchars c (mem_of_mem_words hw hc)).resolve_right ?_
  rintro rfl
  have hpart := ((reads_words t).isWord w hw).isWordPart '_' hc
  revert hpart
  decide

include hchars hfirst in
theorem exists_toPascal_eq : ∃ c rest, isAsciiLetter c = true ∧ toPascal t = upperAscii c :: rest ∧
    ∀ x ∈ rest, isAsciiAlphanumeric x = true := by
  obtain ⟨c, rest, ws, hletter, hwords⟩ := exists_words_eq_cons hfirst
  refine ⟨c, _, hletter, toPascal_of_words_eq hwords, ?_⟩
  have halphanumeric {w : Text} (hw : w ∈ words t) : ∀ x ∈ w, isAsciiAlphanumeric x = true :=
    fun x hx => isAsciiAlphanumeric_of_mem_words hchars hw hx
  have hlower {w : Text} (hw : ∀ x ∈ w, isAsciiAlphanumeric x = true) :
      ∀ x ∈ w.map lowerChar, isAsciiAlphanumeric x = true :=
    List.forall_mem_map.mpr fun x hx => isAsciiAlphanumeric_lowerChar (hw x hx)
  rw [hwords] at halphanumeric
  refine List.forall_mem_append.mpr ⟨?_, List.forall_mem_flatMap.mpr fun w hw => ?_⟩
  · exact hlower (List.forall_mem_cons.mp (halphanumeric List.mem_cons_self)).2
  · have hother := halphanumeric (List.mem_cons_of_mem _ hw)
    cases w with
    | nil => exact List.forall_mem_nil _
    | cons x others =>
        obtain ⟨hx, hothers⟩ := List.forall_mem_cons.mp hother
        exact List.forall_mem_cons.mpr ⟨isAsciiAlphanumeric_upperAscii hx, hlower hothers⟩

include hchars hfirst in
theorem isPascal_toPascal : isPascal (toPascal t) = true := by
  obtain ⟨c, rest, hletter, hpascal, hrest⟩ := exists_toPascal_eq hchars hfirst
  rw [hpascal, isPascal, shaped, isAsciiUpper_upperAscii hletter, List.all_eq_true.mpr hrest]
  rfl

include hchars hfirst in
theorem isCamel_toCamel : isCamel (toCamel t) = true := by
  obtain ⟨c, rest, hletter, hpascal, hrest⟩ := exists_toPascal_eq hchars hfirst
  have hcapital := isAsciiLetter_of_isAsciiUpper (isAsciiUpper_upperAscii hletter)
  rw [toCamel, hpascal]
  change (isAsciiLower (lowerChar (upperAscii c)) && rest.all isAsciiAlphanumeric) = true
  rw [isAsciiLower_lowerChar hcapital, List.all_eq_true.mpr hrest]
  rfl

include hchars hfirst in
theorem shaped_joinWords {f : Char → Char} {first other : Char → Bool}
    (hne : first '_' = false) (hsep : other '_' = true)
    (hletter : ∀ c, isAsciiLetter c = true → first (f c) = true)
    (hother : ∀ c, isAsciiAlphanumeric c = true → other (f c) = true) :
    shaped first other (dropUnderscores (leadingUnderscores t ++
      Text.joinWith ['_'] ((words t).map (·.map f)))) = true := by
  obtain ⟨c, rest, ws, hc, hwords⟩ := exists_words_eq_cons hfirst
  have hjoined : ∀ x ∈ Text.joinWith ['_'] ((words t).map (·.map f)), other x = true := by
    refine Text.forall_mem_joinWith (List.forall_mem_singleton.mpr hsep) ?_
    refine List.forall_mem_map.mpr fun w hw => List.forall_mem_map.mpr fun x hx => ?_
    exact hother x (isAsciiAlphanumeric_of_mem_words hchars hw hx)
  have hhead : f c ≠ '_' := by
    intro heq
    have htrue := hletter c hc
    rw [heq, hne] at htrue
    cases htrue
  rw [hwords, List.map_cons, Text.joinWith_cons, List.map_cons, List.cons_append] at hjoined ⊢
  rw [dropUnderscores, List.dropWhile_append_of_pos fun x hx =>
    beq_iff_eq.mpr (eq_of_mem_leadingUnderscores hx), List.dropWhile_cons_of_neg (by simpa)]
  obtain ⟨-, hbehind⟩ := List.forall_mem_cons.mp hjoined
  rw [shaped, hletter c hc, List.all_eq_true.mpr hbehind]
  rfl

include hchars hfirst in
theorem isSnake_toSnake : isSnake (toSnake t) = true := by
  apply shaped_joinWords hchars hfirst rfl rfl
  · exact fun c hc => isAsciiLower_lowerChar hc
  · exact fun c hc => Bool.or_eq_true_iff.mpr (Or.inl (isAsciiLower_or_isAsciiDigit_lowerChar hc))

include hchars hfirst in
theorem isUpperSnake_toUpperSnake : isUpperSnake (toUpperSnake t) = true := by
  apply shaped_joinWords hchars hfirst rfl rfl
  · exact fun c hc => isAsciiUpper_upperAscii hc
  · exact fun c hc => Bool.or_eq_true_iff.mpr (Or.inl (isAsciiUpper_or_isAsciiDigit_upperAscii hc))

end Conventions

end Identifier

namespace Convention

/-- Converted names follow the convention that they are converted to. -/
theorem holds_convert (convention : Convention) {t : Text}
    (hchars : ∀ x ∈ t, isAsciiAlphanumeric x = true ∨ x = '_')
    (hfirst : ∃ c ∈ (Identifier.dropUnderscores t).head?, isAsciiLetter c = true) :
    convention.holds (convention.convert t) = true := by
  cases convention with
  | pascal => exact Identifier.isPascal_toPascal hchars hfirst
  | camel => exact Identifier.isCamel_toCamel hchars hfirst
  | snake => exact Identifier.isSnake_toSnake hchars hfirst
  | upperSnake => exact Identifier.isUpperSnake_toUpperSnake hchars hfirst

theorem holds_convert_parsedResponse :
    upperSnake.convert "__parseHTTPResponse2_x".toList = "__PARSE_HTTP_RESPONSE2_X".toList ∧
      upperSnake.holds (upperSnake.convert "__parseHTTPResponse2_x".toList) = true := by
  refine ⟨by decide +kernel, holds_convert upperSnake ?_ ⟨'p', rfl, rfl⟩⟩
  simp [isAsciiAlphanumeric, isAsciiLetter, isAsciiUpper, isAsciiLower, isAsciiDigit]

end Convention

end LineLint
