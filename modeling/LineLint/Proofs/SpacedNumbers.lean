import LineLint.Proofs.OperatorPlaces
import LineLint.Proofs.SpacingReports

/-!
# Numbers on the spaced line

The sign of an exponent is read as an operator. It is kept where the text before it is a number that
starts with a digit, so that such numbers are copied; a number that starts with its point is torn
apart at the sign.
-/

namespace LineLint

open Cell (codes)
open LiteralStyle (IsInCode)

/-- A decimal number with a signed exponent: digits with a fraction perhaps, or a fraction alone. -/
structure SignedNumber where
  whole : Text
  /-- The digits behind the point. -/
  fraction : Option Text
  mark : Char
  sign : Char
  exponent : Text
  isDecimal : ∀ c ∈ whole ++ fraction.getD [] ++ exponent, isDecimal c = true
  fraction_ne_nil : ∀ digits ∈ fraction, digits ≠ []
  whole_ne_nil : fraction = none → whole ≠ []
  exponent_ne_nil : exponent ≠ []
  mark_eq : mark = 'e' ∨ mark = 'E'
  sign_eq : sign = '+' ∨ sign = '-'

namespace SignedNumber

variable (n : SignedNumber)

def mantissa : Text :=
  match n.fraction with
  | none => n.whole
  | some digits => n.whole ++ '.' :: digits

def text : Text := n.mantissa ++ n.mark :: n.sign :: n.exponent

/-- The number stands in the code of a line, and neither a name nor a number runs into it. -/
structure StandsIn (style : LiteralStyle) (before after : Text) : Prop where
  previous : before.getLast?.any OperatorSpacing.isMarkChar = false
  inCode : ∀ i, before.length ≤ i → i < (before ++ n.text).length →
    IsInCode style (before ++ n.text ++ after) i

def span (before : Text) : Span := ⟨before.length, (before ++ n.text).length⟩

variable {n}

theorem isDecimal_of_mem_whole {c : Char} (hc : c ∈ n.whole) : LineLint.isDecimal c = true :=
  n.isDecimal c (by simp [hc])

theorem isDecimal_of_mem_fraction {c : Char} {digits : Text} (hdigits : n.fraction = some digits)
    (hc : c ∈ digits) : LineLint.isDecimal c = true :=
  n.isDecimal c (by simp [hdigits, hc])

theorem isDecimal_of_mem_exponent {c : Char} (hc : c ∈ n.exponent) : LineLint.isDecimal c = true :=
  n.isDecimal c (by simp [hc])

end SignedNumber

namespace OperatorSpacing

variable {n : SignedNumber} {r : OperatorSpacing} {before after : Text}

theorem isMarkChar_of_mem_mantissa : ∀ c ∈ n.mantissa, isMarkChar c = true := by
  unfold SignedNumber.mantissa
  cases hfraction : n.fraction with
  | none => exact fun c hc => isMarkChar_of_isDecimal (n.isDecimal_of_mem_whole hc)
  | some digits =>
      refine List.forall_mem_append.mpr
        ⟨fun c hc => ?_, List.forall_mem_cons.mpr ⟨rfl, fun c hc => ?_⟩⟩
      · exact isMarkChar_of_isDecimal (n.isDecimal_of_mem_whole hc)
      · exact isMarkChar_of_isDecimal (n.isDecimal_of_mem_fraction hfraction hc)

/-- What comes before the letter of an exponent is a mantissa for the pattern exactly if it starts
with a digit. -/
theorem isMantissa_iff : IsMantissa n.mantissa ↔ n.whole ≠ [] := by
  constructor
  · rintro ⟨whole, fraction, heq, hne, hwhole, -⟩ hnil
    unfold SignedNumber.mantissa at heq
    cases hfraction : n.fraction with
    | none => exact n.whole_ne_nil hfraction hnil
    | some digits =>
        obtain ⟨c, others, rfl⟩ := List.exists_cons_of_ne_nil hne
        rw [hfraction, hnil] at heq
        obtain ⟨rfl, -⟩ := List.cons.inj heq
        exact absurd (hwhole '.' List.mem_cons_self) (by decide)
  · intro hne
    unfold SignedNumber.mantissa
    cases hfraction : n.fraction with
    | none =>
        exact ⟨n.whole, [], (List.append_nil _).symm, hne, fun c hc => n.isDecimal_of_mem_whole hc,
          Or.inl rfl⟩
    | some digits =>
        exact ⟨n.whole, '.' :: digits, rfl, hne, fun c hc => n.isDecimal_of_mem_whole hc,
          Or.inr ⟨digits, rfl, fun c hc => n.isDecimal_of_mem_fraction hfraction hc⟩⟩

section Runs

variable {t : Text}

theorem isMarkChar_mark : isMarkChar n.mark = true := by
  rcases n.mark_eq with h | h
  all_goals
    rw [h]
    decide

theorem takeWhile_isMarkChar (ht : t.takeWhile isMarkChar = []) :
    (n.mark :: (n.mantissa.reverse ++ t)).takeWhile isMarkChar =
      n.mark :: n.mantissa.reverse := by
  rw [List.takeWhile_cons_of_pos isMarkChar_mark, List.takeWhile_append_of_pos fun c hc =>
    isMarkChar_of_mem_mantissa c (List.mem_reverse.mp hc), ht, List.append_nil]

theorem isDecimal_of_mem_takeWhile (ht : t.takeWhile isWordChar = []) :
    ∀ c ∈ (n.mantissa.reverse ++ t).takeWhile isWordChar, isDecimal c = true := by
  unfold SignedNumber.mantissa
  cases hfraction : n.fraction with
  | none =>
      have hwhole : ∀ c ∈ n.whole.reverse, isDecimal c = true := fun c hc =>
        n.isDecimal_of_mem_whole (List.mem_reverse.mp hc)
      rw [List.takeWhile_append_of_pos fun c hc => isWordChar_of_isDecimal (hwhole c hc), ht,
        List.append_nil]
      exact hwhole
  | some digits =>
      have hdigits : ∀ c ∈ digits.reverse, isDecimal c = true := fun c hc =>
        n.isDecimal_of_mem_fraction hfraction (List.mem_reverse.mp hc)
      rw [List.reverse_append, List.reverse_cons, List.append_assoc, List.append_assoc,
        List.takeWhile_append_of_pos fun c hc => isWordChar_of_isDecimal (hdigits c hc),
        List.singleton_append, List.takeWhile_cons_of_neg (by decide), List.append_nil]
      exact hdigits

/-- The letter of an exponent is no keyword behind which an operand is called for. -/
theorem expectsOperand_mark (ht : t.takeWhile isWordChar = []) :
    expectsOperand (n.mark :: (n.mantissa.reverse ++ t)) = false := by
  have hmark : isBlank n.mark = false ∧ unaryContext.contains n.mark = false ∧
      isWordChar n.mark = true ∧ (isAsciiLetter n.mark || n.mark == '_') = true ∧
        unaryKeywords.contains [n.mark] = false := by
    rcases n.mark_eq with h | h
    all_goals
      rw [h]
      decide
  obtain ⟨hblank, hcontext, hword, hletter, hkeyword⟩ := hmark
  have hname : lastName (n.mark :: (n.mantissa.reverse ++ t)) = [n.mark] := by
    rw [lastName, List.takeWhile_cons_of_pos hword, List.reverse_cons,
      List.dropWhile_append_of_pos fun c hc => ?_, List.dropWhile_cons_of_neg (by simp [hletter])]
    have hdecimal := isDecimal_of_mem_takeWhile ht c (List.mem_reverse.mp hc)
    rw [not_letter_of_isDecimal hdecimal]
    rfl
  rw [expectsOperand, List.dropWhile_cons_of_neg (by simp [hblank])]
  simp only [hcontext, hname, hkeyword, Bool.or_false]

end Runs

section Tables

theorem signs_of_mem_builtin : ∀ r ∈ builtin, ∀ sign ∈ ['+', '-'],
    [sign] ∈ r.table.byLength ∧ r.table.verbatim.contains [sign] = false ∧
      r.table.unaryCapable.contains [sign] = true := by
  have htables : builtin.all (fun r => ['+', '-'].all fun sign =>
      (r.table.binary ++ r.table.verbatim).contains [sign] &&
        !r.table.verbatim.contains [sign] && r.table.unaryCapable.contains [sign]) = true := by
    decide +kernel
  intro r hr sign hsign
  have hsigns := List.all_eq_true.mp (List.all_eq_true.mp htables r hr) sign hsign
  simp only [Bool.and_eq_true, Bool.not_eq_true', List.contains_iff_mem] at hsigns
  exact ⟨mem_byLength.mpr hsigns.1.1, hsigns.1.2, List.contains_iff_mem.mpr hsigns.2⟩

end Tables

section Sign

/-- A sign between the letter of an exponent and its digits is set off exactly if the number starts
with its point. -/
theorem setsOff_sign_iff (hr : r ∈ builtin) {t : Text} (ht : t.takeWhile isMarkChar = [])
    {depth : Nat} {after : List Cell} {c : Cell} (hc : after.head? = some c)
    (hdecimal : isDecimal c.masked = true) :
    r.setsOff [n.sign] (n.mark :: (n.mantissa.reverse ++ t)) depth after = true ↔ n.whole = [] := by
  obtain ⟨-, hverbatim, hunary⟩ := signs_of_mem_builtin r hr n.sign
    (by rcases n.sign_eq with h | h <;> simp [h])
  have hword : t.takeWhile isWordChar = [] := by
    cases t with
    | nil => rfl
    | cons c t =>
        have hc : isMarkChar c = false := by
          by_contra hc
          rw [List.takeWhile_cons_of_pos (by simpa using hc)] at ht
          cases ht
        exact List.takeWhile_cons_of_neg (by simp [(Bool.or_eq_false_iff.mp hc).1])
  have hequals : ([n.sign] == ['=']) = false := by rcases n.sign_eq with h | h <;> rw [h] <;> rfl
  have hbefore : tightBefore (n.mark :: (n.mantissa.reverse ++ t)) = true := by
    rcases n.mark_eq with h | h <;> rw [h] <;> rfl
  have htight : tightAfter after = true := by
    rw [tightAfter, hc, Option.any_some, isBlank_of_isDecimal hdecimal]
    rfl
  have hdigit : (after.head?.any fun c => isDigit c.masked) = true := by
    rw [hc, Option.any_some, isDigit_of_isDecimal hdecimal]
  have hin : inExponent [n.sign] (n.mark :: (n.mantissa.reverse ++ t)) = true ↔ n.whole ≠ [] := by
    rw [inExponent_iff, takeWhile_isMarkChar ht, ← isMantissa_iff]
    constructor
    · rintro ⟨-, mantissa, e, heq, hmantissa, -⟩
      rwa [List.reverse_injective (List.cons.inj heq).2]
    · exact fun hmantissa =>
        ⟨by simpa using n.sign_eq, n.mantissa, n.mark, rfl, hmantissa, n.mark_eq⟩
  have hset : r.setsOff [n.sign] (n.mark :: (n.mantissa.reverse ++ t)) depth after =
      !inExponent [n.sign] (n.mark :: (n.mantissa.reverse ++ t)) := by
    rw [setsOff, keeps, hverbatim, hequals, expectsOperand_mark hword, hunary, hbefore, htight,
      hdigit]
    simp
  rw [hset, Bool.not_eq_true', ← Bool.not_eq_true, hin, not_ne_iff]

theorem isMarkChar_of_mem_front : ∀ c ∈ n.mantissa ++ [n.mark], isMarkChar c = true :=
  List.forall_mem_append.mpr
    ⟨isMarkChar_of_mem_mantissa, List.forall_mem_singleton.mpr isMarkChar_mark⟩

theorem length_of_operator {s t : Text} {x : Char} (hsplit : n.text = s ++ x :: t)
    (hx : x ∈ operatorChars) : s.length = n.mantissa.length + 1 := by
  have hno : isMarkChar x = false := isWordClass_isMarkChar.operator x hx
  have hback : ∀ c ∈ n.exponent, isMarkChar c = true := fun c hc =>
    isMarkChar_of_isDecimal (n.isDecimal_of_mem_exponent hc)
  have htext : n.mantissa ++ [n.mark] ++ n.sign :: n.exponent = s ++ x :: t := by
    rw [← hsplit, SignedNumber.text]
    simp
  have hlength : (n.mantissa ++ [n.mark]).length = n.mantissa.length + 1 := by simp
  rcases List.append_eq_append_iff.mp htext with ⟨more, rfl, hmore⟩ | ⟨more, hfront, hmore⟩
  · cases more with
    | nil => rw [List.append_nil, hlength]
    | cons y more =>
        obtain ⟨rfl, hexponent⟩ := List.cons.inj hmore
        rw [hback x (by rw [hexponent]; simp)] at hno
        cases hno
  · cases more with
    | nil => rw [← hlength, hfront, List.append_nil]
    | cons y more =>
        obtain ⟨rfl, -⟩ := List.cons.inj hmore
        rw [isMarkChar_of_mem_front (n := n) x (by rw [hfront]; simp)] at hno
        cases hno

theorem not_blank_of_mem_text : ∀ c ∈ n.text, isSpaceOrTab c = false ∧ c ≠ '(' := by
  have hmark {c : Char} (hc : isMarkChar c = true) : isSpaceOrTab c = false ∧ c ≠ '(' := by
    refine ⟨?_, fun hparen => ?_⟩
    · by_contra hblank
      rw [isWordClass_isMarkChar.blank c (by simpa using hblank)] at hc
      cases hc
    · rw [hparen] at hc
      cases hc
  rw [SignedNumber.text, List.append_cons]
  refine List.forall_mem_append.mpr ⟨fun c hc => hmark (isMarkChar_of_mem_front c hc),
    List.forall_mem_cons.mpr ⟨?_, fun c hc => ?_⟩⟩
  · rcases n.sign_eq with h | h <;> rw [h] <;> decide
  · exact hmark (isMarkChar_of_isDecimal (n.isDecimal_of_mem_exponent hc))

end Sign

section Places

open SignedNumber (StandsIn)

/-- Neither a name nor a number runs into the number on the masked line. -/
theorem takeWhile_backward_of_previous {line : Text} {first others : List Cell}
    (hcells : r.codeCells line = first ++ others)
    (hprevious : (codes first).getLast?.any isMarkChar = false) :
    (backward first).takeWhile isMarkChar = [] := by
  rcases List.eq_nil_or_concat first with rfl | ⟨first, d, rfl⟩
  · rfl
  · rw [List.concat_eq_append] at hcells hprevious ⊢
    rw [List.append_assoc, List.singleton_append] at hcells
    have hat := isAt_of_split hcells
    have hd : isMarkChar d.masked = false := by
      rcases LiteralStyle.eq_or_isInside hat.code_eq hat.masked_eq with hsame | ⟨hmask, -⟩
      · rw [hsame]
        simpa [codes] using hprevious
      · rw [hmask]
        decide
    rw [backward_append, backward_singleton]
    exact List.takeWhile_cons_of_neg (by simp [hd])

/-- The cells of a number, split at its sign: what is read before the sign goes back over the
number and no further, and a digit stands behind it. -/
theorem exists_cells_at_sign (hat : n.StandsIn r.style before after) :
    ∃ front c d rest reversed,
      r.codeCells (before ++ n.text ++ after) = front ++ c :: d :: rest ∧
        front.length = before.length + (n.mantissa.length + 1) ∧ c.masked = n.sign ∧
        isDecimal d.masked = true ∧ backward front = n.mark :: (n.mantissa.reverse ++ reversed) ∧
        reversed.takeWhile isMarkChar = [] := by
  have hne : n.text ≠ [] := by simp [SignedNumber.text]
  obtain ⟨first, middle, last, hcells, rfl, hcodes, hmasked⟩ :=
    exists_cells_of_isInCode hne hat.inCode
  rw [SignedNumber.text, List.append_cons] at hmasked
  obtain ⟨mantissaCells, others, rfl, hfront, hothers⟩ := maskOf_eq_append_iff.mp hmasked
  obtain ⟨c, digits, rfl, hc, hdigits⟩ := List.map_eq_cons_iff.mp hothers
  obtain ⟨d, digits, rfl⟩ : ∃ d rest, digits = d :: rest := by
    refine List.exists_cons_of_ne_nil fun hnil => n.exponent_ne_nil ?_
    rw [← hdigits, hnil]
    rfl
  refine ⟨first ++ mantissaCells, c, d, digits ++ last, backward first, ?_, ?_, hc, ?_, ?_,
    takeWhile_backward_of_previous hcells hat.previous⟩
  · rw [hcells]
    simp
  · have hlength := congrArg List.length hfront
    simp only [maskOf, List.length_map, List.length_append, List.length_singleton] at hlength
    rw [List.length_append, Cell.length_codes, hlength]
  · exact n.isDecimal_of_mem_exponent (by rw [← hdigits]; exact List.mem_cons_self)
  · have hback : backward mantissaCells = (n.mantissa ++ [n.mark]).reverse :=
      congrArg List.reverse hfront
    rw [backward_append, hback, List.reverse_concat, List.cons_append]

/-- The sign of a number is a piece, set off exactly if the number starts with its point. -/
theorem exists_piece_of_sign (hr : r ∈ builtin) (hat : n.StandsIn r.style before after) :
    ∃ front p back, (r.reading (before ++ n.text ++ after)).pieces = front ++ p :: back ∧
      (join front ++ p.gap).length = before.length + (n.mantissa.length + 1) ∧
      p.cells.length = 1 ∧ (p.isSetOff = true ↔ n.whole = []) := by
  have h := isRegular_of_mem_builtin r hr
  obtain ⟨first, c, d, rest, reversed, hcells, hlength, hc, hdecimal, hreversed, hrun⟩ :=
    exists_cells_at_sign hat
  have hchar : c.masked ∈ operatorChars := by
    rw [hc]
    rcases n.sign_eq with h | h <;> rw [h] <;> decide
  obtain ⟨hmem, -, -⟩ := signs_of_mem_builtin r hr n.sign
    (by rcases n.sign_eq with h | h <;> simp [h])
  have hplain : c.isProtected = false := by
    refine notProtected_of_operator h hcells hchar ?_
    rw [hc]
    rcases n.sign_eq with h | h <;> rw [h] <;> decide
  -- neither the mark before the sign nor the digit behind it is an operator character
  have hprevious : ∀ e ∈ first.getLast?, e.masked ∉ operatorChars := by
    intro e he hoperator
    obtain ⟨front, hconcat⟩ := List.getLast?_eq_some_iff.mp he
    rw [hconcat, backward_append, backward_singleton] at hreversed
    have hmark := isWordClass_isMarkChar.operator _ hoperator
    rw [(List.cons.inj hreversed).1, isMarkChar_mark] at hmark
    cases hmark
  have hends : ∀ token ∈ r.table.byLength, token.head? = some c.masked →
      ∀ x ∈ (maskOf (d :: rest)).head?, x ∉ token.tail := by
    intro token htoken _ x hx hin
    obtain rfl : d.masked = x := Option.some.inj hx
    have hmark := isWordClass_isMarkChar.operator _
      ((h.operators token htoken).2 _ (List.mem_of_mem_tail hin))
    rw [isMarkChar_of_isDecimal hdecimal] at hmark
    cases hmark
  obtain ⟨front, p, back, hsplit, hbefore, hsingle, -, htoken⟩ :=
    exists_single_operator h hcells hplain (Or.inl hprevious) (hc ▸ hmem) hends
  refine ⟨front, p, back, hsplit, by rw [hbefore, hlength], by rw [hsingle]; rfl, ?_⟩
  rw [htoken.isSetOff_eq, hc]
  change r.setsOff [n.sign] (backward first) _ _ = true ↔ _
  rw [hreversed]
  exact setsOff_sign_iff hr hrun rfl hdecimal

theorem isSetOff_iff_of_covers_sign (hr : r ∈ builtin) (hat : n.StandsIn r.style before after)
    {front back : List Piece} {p : Piece}
    (hsplit : (r.reading (before ++ n.text ++ after)).pieces = front ++ p :: back)
    (hbefore : (join front ++ p.gap).length ≤ before.length + (n.mantissa.length + 1))
    (hbehind : before.length + (n.mantissa.length + 1) <
      (join front ++ p.gap ++ p.cells).length) : p.isSetOff = true ↔ n.whole = [] := by
  obtain ⟨frontₛ, sign, backₛ, hsplitₛ, hplace, hlength, hwhole⟩ := exists_piece_of_sign hr hat
  obtain ⟨-, rfl, -⟩ := split_unique hsplit hsplitₛ hbefore hbehind (Nat.le_of_eq hplace)
    (by rw [List.length_append, hplace, hlength]; exact Nat.lt_succ_self _)
  exact hwhole

/-- A piece that starts within a number stands right behind a character of the number. -/
theorem exists_neighbours (h : r.IsRegular) (hat : n.StandsIn r.style before after)
    {front back : List Piece} {q : Piece}
    (hsplit : (r.reading (before ++ n.text ++ after)).pieces = front ++ q :: back)
    (hstart : before.length < (join front ++ q.gap).length)
    (hstop : (join front ++ q.gap).length < (before ++ n.text).length) :
    q.gap = [] ∧ ∃ cells u x others s t, join front = cells ++ [u] ∧ q.cells = x :: others ∧
      n.text = s ++ u.masked :: x.masked :: t ∧ cells.length = before.length + s.length := by
  have hne : n.text ≠ [] := by simp [SignedNumber.text]
  obtain ⟨first, middle, last, hcells, rfl, -, hmasked⟩ :=
    exists_cells_of_isInCode hne hat.inCode
  have hq := isSound_of_split h hsplit
  obtain ⟨x, others, hcons⟩ := List.exists_cons_of_ne_nil hq.cells_ne_nil
  have hplace := codeCells_eq_of_split h hsplit
  rw [hcells, hcons, List.cons_append] at hplace
  rw [@List.length_append _ (codes first), ← hmasked, maskOf, List.length_map] at hstop
  rw [Cell.length_codes] at hstart hstop
  obtain ⟨inner, outer, rfl, hbefore, -⟩ := exists_split_of_length hplace.symm
    (Nat.le_of_lt hstart) (by rwa [@List.length_append _ first])
  obtain ⟨init, u, rfl⟩ : ∃ init u, inner = init ++ [u] := by
    rcases List.eq_nil_or_concat inner with rfl | ⟨init, u, rfl⟩
    · rw [hbefore, List.append_nil] at hstart
      exact absurd hstart (Nat.lt_irrefl _)
    · exact ⟨init, u, List.concat_eq_append⟩
  have htext : n.text = maskOf init ++ u.masked :: x.masked :: maskOf outer := by
    rw [← hmasked]
    simp [maskOf]
  have hgap : q.gap = [] := by
    by_contra hne
    obtain ⟨gap, y, hconcat⟩ := (List.eq_nil_or_concat q.gap).resolve_left hne
    have hblank := isSpaceOrTab_masked hq.gap y (by rw [hconcat]; simp)
    rw [hconcat, List.concat_eq_append, ← List.append_assoc, ← List.append_assoc] at hbefore
    obtain rfl : y = u := by simpa using (List.append_inj' hbefore rfl).2
    rw [(not_blank_of_mem_text (n := n) y.masked (by rw [htext]; simp)).1] at hblank
    cases hblank
  rw [hgap, List.append_nil, ← List.append_assoc] at hbefore
  refine ⟨hgap, first ++ init, u, x, others, _, _, hbefore, hcons, htext, ?_⟩
  rw [List.length_append, Cell.length_codes, maskOf, List.length_map]

/-- A piece that ends with a character of the number and is set off is its sign. -/
theorem whole_eq_nil_of_endsSetOff (hr : r ∈ builtin) (hat : n.StandsIn r.style before after)
    {front back : List Piece} {q : Piece} {cells : List Cell} {u : Cell} {s t : Text}
    (hsplit : (r.reading (before ++ n.text ++ after)).pieces = front ++ q :: back)
    (hends : endsSetOff false front = true) (hfront : join front = cells ++ [u])
    (htext : n.text = s ++ u.masked :: t) (hlength : cells.length = before.length + s.length) :
    n.whole = [] := by
  have h := isRegular_of_mem_builtin r hr
  obtain ⟨init, w, rfl, hset⟩ := exists_concat_of_endsSetOff hends
  rw [List.append_assoc init, List.singleton_append] at hsplit
  have hw := isSound_of_split h hsplit
  obtain ⟨inner, y, hconcat⟩ := (List.eq_nil_or_concat w.cells).resolve_left hw.cells_ne_nil
  have hlast : join init ++ w.gap ++ w.cells = cells ++ [u] := by
    rw [← hfront]
    simp
  obtain rfl : y = u := by
    rw [hconcat, List.concat_eq_append, ← List.append_assoc] at hlast
    simpa using (List.append_inj' hlast rfl).2
  have hplace := length_of_operator htext
    (hw.isMark_of_isSetOff hset y (by simp [hconcat])).2.2
  have hcount := congrArg List.length hlast
  have hpos := List.length_pos_of_ne_nil hw.cells_ne_nil
  rw [@List.length_append _ _ [y], List.length_singleton] at hcount
  refine (isSetOff_iff_of_covers_sign hr hat hsplit ?_ ?_).mp hset
  · rw [@List.length_append _ _ w.cells] at hcount
    omega
  · omega

/-- A gap that is changed within a number stands beside its sign, which is set off. -/
theorem whole_eq_nil_of_changesGapAt (hr : r ∈ builtin) (hat : n.StandsIn r.style before after)
    {i : Nat} (hstart : before.length < i) (hstop : i < (before ++ n.text).length)
    (hchanges : (r.reading (before ++ n.text ++ after)).ChangesGapAt i) : n.whole = [] := by
  have h := isRegular_of_mem_builtin r hr
  obtain ⟨front, q, back, hsplit, rfl, hchanged⟩ := hchanges
  obtain ⟨hgap, cells, u, x, others, s, t, hfront, hcons, htext, hlength⟩ :=
    exists_neighbours h hat hsplit hstart hstop
  have hq := isSound_of_split h hsplit
  have hx : x ∈ q.cells := hcons ▸ List.mem_cons_self
  -- the sign is the piece behind the gap or the one before it
  cases hqset : q.isSetOff with
  | true =>
      have hplace := length_of_operator (s := s ++ [u.masked]) (by simpa using htext)
        (hq.isMark_of_isSetOff hqset x hx).2.2
      rw [List.length_append, List.length_singleton] at hplace
      refine (isSetOff_iff_of_covers_sign hr hat hsplit ?_ ?_).mp hqset
      all_goals
        rw [hgap, hfront]
        simp only [List.length_append, List.length_nil, hcons, List.length_cons]
        omega
  | false =>
      cases hends : endsSetOff false front with
      | true => exact whole_eq_nil_of_endsSetOff hr hat hsplit hends hfront htext hlength
      | false =>
          refine absurd ?_ hchanged
          rw [hends, Piece.newGap_of_kept hqset (hq.keyword_eq_none hx (Or.inr ?_))]
          exact (not_blank_of_mem_text (n := n) x.masked (by rw [htext]; simp)).2

/-- In every language, a number with a signed exponent is copied exactly if it starts with a
digit. -/
theorem isCopied_signedNumber_iff (hr : r ∈ builtin) (n : SignedNumber) (before after : Text)
    (hat : n.StandsIn r.style before after) :
    (n.span before).IsCopied (before ++ n.text ++ after)
      (r.normalize (before ++ n.text ++ after)).line ↔ n.whole ≠ [] := by
  have h := isRegular_of_mem_builtin r hr
  have hne : n.text ≠ [] := by simp [SignedNumber.text]
  obtain ⟨first, middle, last, hcells, hfirst, hcodes, hmasked⟩ :=
    exists_cells_of_isInCode hne hat.inCode
  obtain ⟨x, middle, rfl⟩ := List.exists_cons_of_ne_nil (l := middle) fun hnil => by
    rw [← hcodes, hnil] at hne
    exact hne rfl
  have hshows {c : Char} (hc : c ∈ n.text) : isSpaceOrTab c = false :=
    (not_blank_of_mem_text c hc).1
  rw [SignedNumber.span, isCopied_part_iff h hcells hfirst
    (hshows (by rw [← hcodes]; exact List.mem_cons_self))
    (hshows (by rw [← hmasked]; exact List.mem_cons_self)) hne
    fun c hc => hshows (List.mem_of_getLast? hc)]
  constructor
  · intro hkept hnil
    obtain ⟨front, p, back, hsplit, hplace, -, hset⟩ := exists_piece_of_sign hr hat
    have hstart : before.length < (join front ++ p.gap).length := by omega
    have hstop : (join front ++ p.gap).length < (before ++ n.text).length := by
      rw [hplace, SignedNumber.text]
      simp only [List.length_append, List.length_cons]
      omega
    refine hkept _ hstart hstop ((changesGapAt_place_iff h hsplit).mpr ?_)
    rw [(exists_neighbours h hat hsplit hstart hstop).1, Piece.newGap, if_pos (hset.mpr hnil)]
    exact List.cons_ne_nil _ _
  · exact fun hwhole i hstart hstop hchanges =>
      hwhole (whole_eq_nil_of_changesGapAt hr hat hstart hstop hchanges)

def halfThousandth : SignedNumber where
  whole := []
  fraction := some ['5']
  mark := 'e'
  sign := '-'
  exponent := ['3']
  isDecimal := List.all_eq_true.mp (by decide)
  fraction_ne_nil := by decide
  whole_ne_nil := by decide
  exponent_ne_nil := by decide
  mark_eq := by decide
  sign_eq := by decide

theorem isCopied_signedNumber_iff_halfThousandth :
    Python.spacing ∈ builtin ∧ halfThousandth.StandsIn Python.spacing.style "x=".toList [] ∧
      (Python.spacing.normalize "x=.5e-3".toList).line = "x = .5e - 3".toList ∧
      ¬Span.IsCopied "x=.5e-3".toList (Python.spacing.normalize "x=.5e-3".toList).line ⟨2, 7⟩ := by
  have hspacing : Python.spacing ∈ builtin := by simp [builtin]
  have hstands : halfThousandth.StandsIn Python.spacing.style "x=".toList [] := by
    have hscan : (Python.spacing.style.splitComment ("x=".toList ++ halfThousandth.text ++ [])).1 =
        "x=".toList ++ halfThousandth.text ∧
        Python.spacing.style.literals ("x=".toList ++ halfThousandth.text ++ []) = [] := by
      decide +kernel
    refine ⟨by decide, fun i _ hi => ⟨by rwa [hscan.1], ?_⟩⟩
    rw [hscan.2]
    exact List.forall_mem_nil _
  have hsorted : Python.spacing.table.byLength = _ := Python.byLength_operators
  have hnew : (Python.spacing.normalize "x=.5e-3".toList).line = "x = .5e - 3".toList := by
    rw [normalize, hsorted]
    decide +kernel
  refine ⟨hspacing, hstands, hnew, fun hcopied => ?_⟩
  exact (isCopied_signedNumber_iff hspacing halfThousandth "x=".toList [] hstands).mp hcopied rfl

end Places

end OperatorSpacing

end LineLint
