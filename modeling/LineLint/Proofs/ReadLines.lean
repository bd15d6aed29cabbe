import LineLint.Proofs.MaskedLiterals
import LineLint.Registry

/-!
# How a line is read

A line is empty, or it begins with its comment, with a character that is passed over, with a literal
that closes, or with one that goes on to the end of the line. What holds of a line as it is read is
proved by induction on these cases. In each of them the mask is known: a literal shows nothing but
its two quotes.
-/

namespace LineLint

namespace LiteralStyle

variable {style : LiteralStyle} {line t u rest literal interior after : Text} {quote c : Char}
  {n : Nat}

section Marks

/-- A character that a language can have for a quote or in its comment mark: neither a blank nor a
part of a name, nor a backslash, nor what masks are made of. -/
def isMark (c : Char) : Bool :=
  !isBlank c && !isNamePart c && c != '\\' && c != maskChar

structure IsOrdinary (style : LiteralStyle) : Prop where
  quotes : ∀ quote ∈ style.quotes, isMark quote = true
  lineComment : ∀ mark ∈ style.lineComment,
    mark ≠ [] ∧ ∀ c ∈ mark, isMark c = true ∧ c ∉ style.quotes

def checksMarks (style : LiteralStyle) : Bool :=
  style.quotes.all isMark && style.lineComment.all fun mark =>
    !mark.isEmpty && mark.all fun c => isMark c && !style.quotes.contains c

theorem isOrdinary_iff_checksMarks : style.IsOrdinary ↔ style.checksMarks = true := by
  have hparts : style.checksMarks = true ↔ (∀ quote ∈ style.quotes, isMark quote = true) ∧
      ∀ mark ∈ style.lineComment, mark ≠ [] ∧ ∀ c ∈ mark, isMark c = true ∧ c ∉ style.quotes := by
    cases hmark : style.lineComment with
    | none => simp [checksMarks, hmark]
    | some mark => simp [checksMarks, hmark]
  rw [hparts]
  exact ⟨fun h => ⟨h.quotes, h.lineComment⟩, fun h => ⟨h.1, h.2⟩⟩

instance (style : LiteralStyle) : Decidable style.IsOrdinary :=
  decidable_of_iff (style.checksMarks = true) isOrdinary_iff_checksMarks.symm

theorem IsOrdinary.notMem_quotes (h : style.IsOrdinary) (hc : isMark c = false) :
    c ∉ style.quotes := by
  intro hquote
  rw [h.quotes c hquote] at hc
  cases hc

theorem IsOrdinary.backslash (h : style.IsOrdinary) : '\\' ∉ style.quotes :=
  h.notMem_quotes (by decide)

theorem IsOrdinary.maskChar (h : style.IsOrdinary) : maskChar ∉ style.quotes :=
  h.notMem_quotes (by decide)

theorem isMark_of_isBlank (hc : isBlank c = true) : isMark c = false := by
  simp [isMark, hc]

theorem isMark_of_isNamePart (hc : isNamePart c = true) : isMark c = false := by
  simp [isMark, hc]

/-- A comment starts alike on texts that start alike as far as the comment marks can tell. -/
theorem IsOrdinary.commentStarts_congr (h : style.IsOrdinary)
    (hsame : ∀ u : Text, u ≠ [] → (∀ c ∈ u, isMark c = true ∧ c ∉ style.quotes) →
      (u <+: t ↔ u <+: line)) : style.commentStarts t = style.commentStarts line := by
  unfold commentStarts
  cases hmark : style.lineComment with
  | none => rfl
  | some mark =>
      obtain ⟨hne, hmarks⟩ := h.lineComment mark hmark
      rw [Option.any_some, Option.any_some, Bool.eq_iff_iff, List.isPrefixOf_iff_prefix,
        List.isPrefixOf_iff_prefix]
      exact hsame mark hne hmarks

theorem IsOrdinary.commentStarts_nil (h : style.IsOrdinary) : style.commentStarts [] = false := by
  unfold commentStarts
  cases hmark : style.lineComment with
  | none => rfl
  | some mark =>
      rw [Option.any_some, Bool.eq_false_iff, Ne, List.isPrefixOf_iff_prefix, List.prefix_nil]
      exact (h.lineComment mark hmark).1

/-- No comment starts with a quote, or with a character that is in no comment mark. -/
theorem IsOrdinary.commentStarts_cons (h : style.IsOrdinary)
    (hc : isMark c = true → c ∈ style.quotes) (rest : Text) :
    style.commentStarts (c :: rest) = false := by
  rw [← h.commentStarts_nil]
  refine h.commentStarts_congr fun u hne hu => ?_
  obtain ⟨x, u, rfl⟩ := List.exists_cons_of_ne_nil hne
  obtain ⟨hx, hquote⟩ := hu x List.mem_cons_self
  have hother : x ≠ c := by
    rintro rfl
    exact hquote (hc hx)
  simp [List.cons_prefix_cons, hother]

end Marks

section Reading

theorem scan_of_staysOpen (hcomment : style.commentStarts t = false) (hopen : style.StaysOpen t) :
    style.scan t = ⟨[⟨0, t.length⟩], none⟩ :=
  (style.isTokenized_scan t).unique (isTokenized_of_staysOpen hcomment hopen)

theorem Closes.exists_interior (h : style.Closes (literal ++ after) literal.length) :
    ∃ quote ∈ style.quotes, ∃ interior, literal = quote :: (interior ++ [quote]) := by
  obtain ⟨delimiter, body, k, hopens, hfirst, hlength⟩ := h
  obtain ⟨rest, hrest⟩ := hfirst.occurs
  have hk : k < body.length := hfirst.lt_length hopens.ne_nil
  have hsplit : literal ++ after = delimiter ++ (body.take k ++ delimiter) ++ rest := by
    rw [hopens.eq_append, List.append_assoc, List.append_assoc, hrest, List.take_append_drop]
  have hliteral : literal = delimiter ++ (body.take k ++ delimiter) := by
    refine (List.append_inj hsplit ?_).1
    rw [List.length_append, List.length_append, List.length_take_of_le (Nat.le_of_lt hk)]
    omega
  obtain ⟨quote, hquote, hdelimiter⟩ := hopens.exists_quote
  refine ⟨quote, hquote, ?_⟩
  rw [hliteral, hdelimiter]
  split_ifs
  · exact ⟨[quote, quote] ++ body.take k ++ [quote, quote], by simp⟩
  · exact ⟨body.take k, by simp⟩

/-- Induction on a line as it is read, from left to right. -/
@[elab_as_elim]
theorem readInduction (style : LiteralStyle) {motive : Text → Prop} (nil : motive [])
    (comment : ∀ c rest, style.commentStarts (c :: rest) = true → motive (c :: rest))
    (plain : ∀ c rest, style.commentStarts (c :: rest) = false → c ∉ style.quotes →
      motive rest → motive (c :: rest))
    (closed : ∀ quote interior after, quote ∈ style.quotes →
      style.IsLiteralBefore (quote :: (interior ++ [quote])) after → motive after →
      motive (quote :: (interior ++ [quote]) ++ after))
    (cutOff : ∀ quote rest, quote ∈ style.quotes → style.commentStarts (quote :: rest) = false →
      style.StaysOpen (quote :: rest) → motive (quote :: rest))
    (line : Text) : motive line := by
  -- a literal takes up many characters at once
  induction hn : line.length using Nat.strongRecOn generalizing line with
  | ind n ih =>
      cases line with
      | nil => exact nil
      | cons c rest =>
          by_cases hcomment : style.commentStarts (c :: rest) = true
          · exact comment c rest hcomment
          rw [Bool.not_eq_true] at hcomment
          by_cases hquote : c ∈ style.quotes
          · cases hclose : closeLength? (style.delimiterAt c (c :: rest))
                (rest.drop ((style.delimiterAt c (c :: rest)).length - 1)) with
            | none =>
                exact cutOff c rest hquote hcomment (staysOpen_of_closeLength? hquote hclose)
            | some k =>
                obtain ⟨body, after, rfl, hliteral⟩ :=
                  exists_isLiteralBefore hcomment hquote hclose
                obtain ⟨quote, hquote, interior, hshape⟩ := hliteral.closes.exists_interior
                rw [← List.cons_append, hshape]
                rw [hshape] at hliteral
                exact closed quote interior after hquote hliteral
                  (ih after.length (by rw [← hn]; simp +arith) after rfl)
          · exact plain c rest hcomment hquote
              (ih rest.length (by rw [← hn]; exact Nat.lt_succ_self _) rest rfl)

end Reading

section Masks

theorem maskLiterals_nil (style : LiteralStyle) : style.maskLiterals [] = [] :=
  rfl

theorem maskLiterals_of_commentStarts (h : style.commentStarts (c :: rest) = true) :
    style.maskLiterals (c :: rest) = c :: rest := by
  have hliterals : style.literals (c :: rest) = [] := by
    rw [literals, scan, scanFrom, if_pos h]
  refine List.ext_getElem? fun i => ?_
  rw [getElem?_maskLiterals, hliterals]
  simp

theorem maskLiterals_of_closed (hquotes : '\\' ∉ style.quotes)
    (h : style.IsLiteralBefore (quote :: (interior ++ [quote])) after) :
    style.maskLiterals (quote :: (interior ++ [quote]) ++ after) =
      quote :: (List.replicate interior.length maskChar ++ [quote]) ++ style.maskLiterals after := by
  rw [h.maskLiterals_eq]
  congr 1
  have hshows : (after.isEmpty && !style.isClosed (quote :: (interior ++ [quote]))
      ⟨0, (quote :: (interior ++ [quote])).length⟩) = false := by
    cases after with
    | nil =>
        have hcloses := h.closes
        rw [List.append_nil] at hcloses
        rw [(isClosed_iff_closes hquotes (Or.inl hcloses)).mpr hcloses]
        rfl
    | cons c after => rfl
  refine List.ext_getElem (by simp [literalMask]) fun i hi _ => ?_
  simp only [literalMask, hshows, List.getElem_mapIdx, Bool.or_false]
  cases i with
  | zero => rfl
  | succ i =>
      have hi : i < interior.length + 1 := by simpa [literalMask] using hi
      rcases Nat.lt_succ_iff_lt_or_eq.mp hi with hlt | rfl
      · simp [hlt]
      · simp

theorem maskLiterals_of_staysOpen (hquotes : '\\' ∉ style.quotes)
    (hcomment : style.commentStarts (quote :: rest) = false)
    (hopen : style.StaysOpen (quote :: rest)) :
    style.maskLiterals (quote :: rest) = quote :: List.replicate rest.length maskChar := by
  have hliterals : style.literals (quote :: rest) = [⟨0, (quote :: rest).length⟩] :=
    congrArg LiteralScan.spans (scan_of_staysOpen hcomment hopen)
  have hclosed : style.isClosed (quote :: rest) ⟨0, (quote :: rest).length⟩ = false := by
    rw [Bool.eq_false_iff, Ne, isClosed_iff_closes hquotes (Or.inr hopen)]
    exact hopen.not_closes
  rw [List.length_cons] at hliterals hclosed
  refine List.ext_getElem? fun i => ?_
  rw [getElem?_maskLiterals, hliterals]
  cases i with
  | zero => simp [hides]
  | succ i =>
      by_cases hi : i < rest.length
      · simp [hides, hclosed, hi]
      · simp [hi]

theorem head?_maskLiterals (hquotes : '\\' ∉ style.quotes) (line : Text) :
    (style.maskLiterals line).head? = line.head? := by
  induction line using style.readInduction with
  | nil => rfl
  | comment c rest hcomment => rw [maskLiterals_of_commentStarts hcomment]
  | plain c rest hcomment hquote =>
      rw [maskLiterals_cons_of_plain hcomment hquote]
      rfl
  | closed quote interior after hquote hliteral =>
      rw [maskLiterals_of_closed hquotes hliteral]
      rfl
  | cutOff quote rest hquote hcomment hopen =>
      rw [maskLiterals_of_staysOpen hquotes hcomment hopen]
      rfl

theorem prefix_cons_iff_eq_nil {x : Char} (hx : x ∉ u) : u <+: x :: rest ↔ u = [] := by
  cases u with
  | nil => simp
  | cons y u =>
      have hne : y ≠ x := fun hsame => hx (hsame ▸ List.mem_cons_self)
      simp [List.cons_prefix_cons, hne]

/-- A line and its mask start with the same texts without quotes. -/
theorem prefix_maskLiterals_iff (hquotes : '\\' ∉ style.quotes) (hu : ∀ c ∈ u, c ∉ style.quotes)
    (line : Text) : u <+: style.maskLiterals line ↔ u <+: line := by
  induction line using style.readInduction generalizing u with
  | nil => rfl
  | comment c rest hcomment => rw [maskLiterals_of_commentStarts hcomment]
  | plain c rest hcomment hquote ih =>
      rw [maskLiterals_cons_of_plain hcomment hquote]
      cases u with
      | nil => simp
      | cons x u =>
          rw [List.cons_prefix_cons, List.cons_prefix_cons,
            ih fun c hc => hu c (List.mem_cons_of_mem x hc)]
  | closed quote interior after hquote hliteral =>
      rw [maskLiterals_of_closed hquotes hliteral]
      have hnot : quote ∉ u := fun hmem => hu quote hmem hquote
      exact (prefix_cons_iff_eq_nil hnot).trans (prefix_cons_iff_eq_nil hnot).symm
  | cutOff quote rest hquote hcomment hopen =>
      rw [maskLiterals_of_staysOpen hquotes hcomment hopen]
      have hnot : quote ∉ u := fun hmem => hu quote hmem hquote
      exact (prefix_cons_iff_eq_nil hnot).trans (prefix_cons_iff_eq_nil hnot).symm

theorem commentStarts_maskLiterals (hstyle : style.IsOrdinary) (line : Text) :
    style.commentStarts (style.maskLiterals line) = style.commentStarts line :=
  hstyle.commentStarts_congr fun _ _ hu =>
    prefix_maskLiterals_iff hstyle.backslash (fun c hc => (hu c hc).2) line

end Masks

end LiteralStyle

/-- The languages of the library have quotes and comment marks that get into no one's way. -/
theorem Registry.isOrdinary_of_mem_builtin :
    ∀ a ∈ builtin.analyzers, a.profile.style.IsOrdinary := by
  decide +kernel

end LineLint
