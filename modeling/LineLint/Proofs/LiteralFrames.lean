import LineLint.Proofs.MaskedLiterals
import LineLint.Proofs.SpaceableCells

/-!
# Literals as frames

A line is taken for a frame around the interior of one of its literals. If the interior holds neither
the quote nor a backslash, every other one of its length can stand in its place: the line is scanned
as it was, and masked as it was, for nothing in the interior is read.
-/

namespace LineLint

/-- A line without the interior of one of its literals: what stands before the literal, its quote,
which may be tripled, and what stands behind it. -/
structure LiteralFrame where
  before : Text
  quote : Char
  isTriple : Bool := false
  after : Text

namespace LiteralFrame

def delimiter (f : LiteralFrame) : Text :=
  if f.isTriple then [f.quote, f.quote, f.quote] else [f.quote]

def literal (f : LiteralFrame) (interior : Text) : Text := f.delimiter ++ interior ++ f.delimiter

def fill (f : LiteralFrame) (interior : Text) : Text :=
  f.before ++ (f.literal interior ++ f.after)

def span (f : LiteralFrame) (n : Nat) : Span :=
  ⟨f.before.length, f.before.length + (f.delimiter.length + n + f.delimiter.length)⟩

/-- An interior that neither ends the literal nor escapes anything. -/
structure IsInterior (f : LiteralFrame) (interior : Text) : Prop where
  ne_nil : interior ≠ []
  quote : f.quote ∉ interior
  backslash : '\\' ∉ interior

section Texts

variable {f : LiteralFrame} {I X : Text} {n i : Nat}

theorem delimiter_eq_cons (f : LiteralFrame) :
    ∃ others, f.delimiter = f.quote :: others ∧ ∀ c ∈ others, c = f.quote := by
  unfold delimiter
  split_ifs
  · exact ⟨[f.quote, f.quote], rfl, by simp⟩
  · exact ⟨[], rfl, List.forall_mem_nil _⟩

theorem delimiter_eq_concat (f : LiteralFrame) :
    ∃ others, f.delimiter = others ++ [f.quote] := by
  unfold delimiter
  split_ifs
  · exact ⟨[f.quote, f.quote], rfl⟩
  · exact ⟨[], rfl⟩

theorem length_delimiter_pos (f : LiteralFrame) : 0 < f.delimiter.length := by
  obtain ⟨others, hcons, -⟩ := f.delimiter_eq_cons
  rw [hcons]
  exact Nat.succ_pos _

theorem literal_eq_cons (f : LiteralFrame) (X : Text) :
    ∃ rest, f.literal X = f.quote :: rest := by
  obtain ⟨others, hcons, -⟩ := f.delimiter_eq_cons
  exact ⟨others ++ X ++ f.delimiter, by rw [literal, hcons]; rfl⟩

theorem length_literal (f : LiteralFrame) (X : Text) :
    (f.literal X).length = f.delimiter.length + X.length + f.delimiter.length := by
  simp [literal, Nat.add_assoc]

theorem span_stop (f : LiteralFrame) (X : Text) :
    (f.span X.length).stop = (f.before ++ f.literal X).length := by
  rw [List.length_append, length_literal]
  rfl

theorem length_fill (h : X.length = I.length) : (f.fill X).length = (f.fill I).length := by
  simp [fill, length_literal, h]

/-- Up to the literal, all that is seen of it is its quote. -/
theorem drop_fill_of_le (f : LiteralFrame) (X : Text) (hi : i ≤ f.before.length) :
    ∃ rest, (f.fill X).drop i = f.before.drop i ++ f.quote :: rest := by
  obtain ⟨rest, hcons⟩ := f.literal_eq_cons X
  refine ⟨rest ++ f.after, ?_⟩
  rw [fill, hcons, List.drop_append_of_le_length hi]
  rfl

theorem drop_fill_of_ge (hX : X.length = n) (hi : (f.span n).stop ≤ i) :
    (f.fill X).drop i = f.after.drop (i - (f.span n).stop) := by
  subst hX
  rw [span_stop] at hi ⊢
  obtain ⟨k, rfl⟩ := Nat.exists_eq_add_of_le hi
  rw [fill, ← List.append_assoc, List.drop_length_add_append, Nat.add_sub_cancel_left]

theorem getElem?_fill_of_lt (f : LiteralFrame) (X : Text) (hi : i < f.before.length) :
    (f.fill X)[i]? = f.before[i]? := by
  rw [fill, List.getElem?_append_left hi]

theorem getElem?_fill_of_ge (hX : X.length = n) (hi : (f.span n).stop ≤ i) :
    (f.fill X)[i]? = f.after[i - (f.span n).stop]? := by
  rw [← List.head?_drop, drop_fill_of_ge hX hi, List.head?_drop]

theorem getElem?_fill_of_end (hX : X.length = n)
    (hi : i = (f.span n).start ∨ i + 1 = (f.span n).stop) : (f.fill X)[i]? = some f.quote := by
  subst hX
  rcases hi with rfl | hi
  · obtain ⟨rest, hcons⟩ := f.literal_eq_cons X
    rw [fill, hcons, span, List.getElem?_append_right (Nat.le_refl _), Nat.sub_self]
    rfl
  · obtain ⟨others, hconcat⟩ := f.delimiter_eq_concat
    have hsplit : f.fill X = f.before ++ f.delimiter ++ X ++ others ++ f.quote :: f.after := by
      rw [fill, literal]
      nth_rewrite 2 [hconcat]
      simp
    have hat : i = (f.before ++ f.delimiter ++ X ++ others).length := by
      rw [span_stop, literal] at hi
      nth_rewrite 2 [hconcat] at hi
      simp only [List.length_append, List.length_singleton] at hi ⊢
      omega
    rw [hsplit, hat, List.getElem?_append_right (Nat.le_refl _), Nat.sub_self]
    rfl

end Texts

end LiteralFrame

/-- The quotes of the language, its comment mark and the backslash have nothing in common. -/
structure LiteralStyle.IsDistinct (style : LiteralStyle) : Prop where
  backslash : '\\' ∉ style.quotes
  mark : ∀ mark ∈ style.lineComment, ∀ quote ∈ style.quotes, quote ∉ mark

namespace LiteralFrame

open LiteralStyle (ClosesAt ClosesFirstAt IsTokenized)

variable {style : LiteralStyle} {f : LiteralFrame} {I X after : Text} {scan : LiteralScan}
  {s : Span}

section Literals

theorem opens_literal (hquote : f.quote ∈ style.quotes)
    (htriple : f.isTriple = true → style.tripleQuotes = true) (hX : f.IsInterior X)
    (after : Text) :
    style.Opens (f.literal X ++ after) f.delimiter (X ++ (f.delimiter ++ after)) := by
  refine ⟨by simp [literal], f.quote, hquote, ?_⟩
  cases hisTriple : f.isTriple with
  | true =>
      have hbegins : [f.quote, f.quote, f.quote] <+: f.literal X ++ after := by
        simp [literal, delimiter, hisTriple]
      rw [if_pos ⟨htriple hisTriple, hbegins⟩, delimiter, if_pos hisTriple]
  | false =>
      obtain ⟨x, others, rfl⟩ := List.exists_cons_of_ne_nil hX.ne_nil
      have hx : f.quote ≠ x := fun hsame => hX.quote (hsame ▸ List.mem_cons_self)
      have hbegins : ¬[f.quote, f.quote, f.quote] <+: f.literal (x :: others) ++ after := by
        simp [literal, delimiter, hisTriple, hx]
      rw [if_neg fun h => hbegins h.2, delimiter, if_neg (by simp [hisTriple])]

theorem closesFirstAt_interior (hquote : f.quote ≠ '\\') (hX : f.IsInterior X) (after : Text) :
    ClosesFirstAt f.delimiter (X ++ (f.delimiter ++ after)) X.length := by
  obtain ⟨others, hcons, -⟩ := f.delimiter_eq_cons
  refine ⟨⟨?_, ?_, ?_⟩, fun m hm hcloses => ?_⟩
  · rw [List.drop_left]
    exact List.prefix_append _ _
  · rw [List.take_left, LiteralStyle.trailingBackslashes_of_notMem hX.backslash]
  · rw [List.getElem?_append_right (Nat.le_refl _), Nat.sub_self, hcons]
    simpa using hquote
  · have hoccurs := hcloses.occurs
    rw [List.drop_append_of_le_length (Nat.le_of_lt hm), List.drop_eq_getElem_cons hm,
      hcons] at hoccurs
    obtain ⟨hsame, -⟩ := List.cons_prefix_cons.mp hoccurs
    exact hX.quote (hsame ▸ List.getElem_mem hm)

theorem closes_literal (hquote : f.quote ∈ style.quotes) (hbackslash : '\\' ∉ style.quotes)
    (htriple : f.isTriple = true → style.tripleQuotes = true) (hX : f.IsInterior X)
    (after : Text) : style.Closes (f.literal X ++ after) (f.literal X).length := by
  have hne : f.quote ≠ '\\' := fun hsame => hbackslash (hsame ▸ hquote)
  exact ⟨_, _, X.length, opens_literal hquote htriple hX after,
    closesFirstAt_interior hne hX after, f.length_literal X⟩

end Literals

section Tokens

/-- A frame whose literal is one of the line, and an interior that can take the place of its own. -/
structure Swaps (style : LiteralStyle) (f : LiteralFrame) (I X : Text) : Prop where
  isDistinct : style.IsDistinct
  mem_literals : f.span I.length ∈ style.literals (f.fill I)
  isInterior : f.IsInterior I
  isInterior' : f.IsInterior X
  length_eq : X.length = I.length

theorem drop_span_start (f : LiteralFrame) (n : Nat) (X : Text) :
    (f.fill X).drop (f.span n).start = f.literal X ++ f.after := by
  rw [fill]
  exact List.drop_left

theorem Swaps.quote_mem (h : Swaps style f I X) : f.quote ∈ style.quotes := by
  obtain ⟨quote, hquote, hat⟩ := (style.isTokenized_scan (f.fill I)).quote_at_start h.mem_literals
  rw [getElem?_fill_of_end rfl (Or.inl rfl), Option.some.injEq] at hat
  rwa [hat]

/-- Where quotes are not tripled, the first two of three would be a literal of their own. -/
theorem Swaps.tripleQuotes (h : Swaps style f I X) (hisTriple : f.isTriple = true) :
    style.tripleQuotes = true := by
  by_contra hsingle
  have hne : f.quote ≠ '\\' := fun hsame => h.isDistinct.backslash (hsame ▸ h.quote_mem)
  have hcloses : style.Closes ((f.fill I).drop (f.span I.length).start) 2 := by
    rw [drop_span_start]
    refine ⟨[f.quote], f.quote :: f.quote :: (I ++ (f.delimiter ++ f.after)), 0,
      ⟨?_, f.quote, h.quote_mem, ?_⟩, ⟨?_, fun m hm => absurd hm (Nat.not_lt_zero m)⟩, rfl⟩
    · simp [literal, delimiter, hisTriple]
    · rw [if_neg fun htriple => hsingle htriple.1]
    · rw [LiteralStyle.closesAt_zero_iff hne]
      simp
  rcases (style.isTokenized_scan (f.fill I)).literals _ h.mem_literals with hown | ⟨hopen, -⟩
  · have hlength := hcloses.eq hown
    simp only [span, delimiter, hisTriple, if_true, List.length_cons, List.length_nil] at hlength
    omega
  · exact hopen.not_closes hcloses

theorem Swaps.closes (h : Swaps style f I X) :
    style.Closes (f.literal X ++ f.after) (f.literal X).length :=
  closes_literal h.quote_mem h.isDistinct.backslash h.tripleQuotes h.isInterior' f.after

theorem Swaps.closesIn (h : Swaps style f I X) (hs : s ∈ style.literals (f.fill I))
    (hcloses : style.ClosesIn (f.fill I) s) : style.ClosesIn (f.fill X) s := by
  have htokens := style.isTokenized_scan (f.fill I)
  rw [LiteralStyle.ClosesIn] at hcloses ⊢
  rcases htokens.apart hs h.mem_literals with rfl | hbefore | hbehind
  · have hlength : (f.span I.length).stop - (f.span I.length).start = (f.literal X).length := by
      rw [length_literal, h.length_eq, span, Nat.add_sub_cancel_left]
    rw [drop_span_start, hlength]
    exact h.closes
  · have hbound := (htokens.bounds s hs).1
    have hle : s.stop ≤ f.before.length := hbefore
    obtain ⟨rest, hrest⟩ := f.drop_fill_of_le I (i := s.start) (by omega)
    obtain ⟨rest', hrest'⟩ := f.drop_fill_of_le X (i := s.start) (by omega)
    rw [hrest] at hcloses
    rw [hrest']
    refine hcloses.congr ?_ fun _ _ hhead => hhead
    rw [List.length_drop]
    omega
  · rwa [drop_fill_of_ge h.length_eq hbehind, ← drop_fill_of_ge (f := f) rfl hbehind]

theorem Swaps.commentStarts_eq (h : Swaps style f I X) {i : Nat} (hi : i ≤ f.before.length) :
    style.commentStarts ((f.fill X).drop i) = style.commentStarts ((f.fill I).drop i) := by
  obtain ⟨rest, hrest⟩ := f.drop_fill_of_le I hi
  obtain ⟨rest', hrest'⟩ := f.drop_fill_of_le X hi
  rw [hrest, hrest', LiteralStyle.commentStarts, LiteralStyle.commentStarts]
  cases hmark : style.lineComment with
  | none => rfl
  | some mark =>
      have hnone := h.isDistinct.mark mark hmark f.quote h.quote_mem
      rw [Option.any_some, Option.any_some, Bool.eq_iff_iff, List.isPrefixOf_iff_prefix,
        List.isPrefixOf_iff_prefix, Text.prefix_append_cons_iff hnone,
        Text.prefix_append_cons_iff hnone]

theorem Swaps.codeLength_eq (h : Swaps style f I X) (scan : LiteralScan) :
    scan.codeLength (f.fill X) = scan.codeLength (f.fill I) := by
  rw [LiteralScan.codeLength, LiteralScan.codeLength, length_fill h.length_eq]

theorem Swaps.isTokenized (h : Swaps style f I X) :
    style.IsTokenized (f.fill X) (style.scan (f.fill I)) := by
  have htokens := style.isTokenized_scan (f.fill I)
  have hlength := length_fill (f := f) h.length_eq
  have hmem : f.span I.length ∈ (style.scan (f.fill I)).spans := h.mem_literals
  have hbound := htokens.bounds _ hmem
  -- the rest of the line is the same from the end of the literal on
  have hbehind {i : Nat} (hi : (f.span I.length).stop ≤ i) :
      (f.fill X).drop i = (f.fill I).drop i := by
    rw [drop_fill_of_ge h.length_eq hi, drop_fill_of_ge rfl hi]
  refine ⟨htokens.ordered, fun s hs => ?_, fun s hs => ?_, fun c hc => ?_, fun i hi houtside => ?_,
    fun i hi houtside => ?_⟩
  · rw [h.codeLength_eq]
    exact htokens.bounds s hs
  · rcases htokens.literals s hs with hcloses | ⟨hopen, hstop, hlast, hcomment⟩
    · exact Or.inl (h.closesIn hs hcloses)
    · right
      have hstart : (f.span I.length).stop ≤ s.start := by
        rcases htokens.apart hs hmem with rfl | hbefore | hbehind
        · have hcloses : style.Closes ((f.fill I).drop (f.span I.length).start)
              (f.literal I).length := by
            rw [drop_span_start]
            exact (Swaps.mk h.isDistinct h.mem_literals h.isInterior h.isInterior rfl).closes
          exact absurd hcloses hopen.not_closes
        · have hle := htokens.codeLength_le
          omega
        · exact hbehind
      rw [hbehind hstart, hlength]
      exact ⟨hopen, hstop, hlast, hcomment⟩
  · obtain ⟨hlt, hstarts⟩ := htokens.comment c hc
    have hcode : (style.scan (f.fill I)).codeLength (f.fill I) = c := by
      rw [LiteralScan.codeLength, Option.mem_def.mp hc, Option.getD_some]
    rw [hlength, hbehind (by omega)]
    exact ⟨hlt, hstarts⟩
  · rw [h.codeLength_eq] at hi
    by_cases hle : i ≤ f.before.length
    · rw [h.commentStarts_eq hle]
      exact htokens.noComment i hi houtside
    · have hstop : (f.span I.length).stop ≤ i := by
        by_contra hlt
        exact houtside _ hmem ⟨by simpa [span] using hle, by omega⟩
      rw [hbehind hstop]
      exact htokens.noComment i hi houtside
  · rw [h.codeLength_eq] at hi
    have hsame : (f.fill X)[i]? = (f.fill I)[i]? := by
      by_cases hlt : i < f.before.length
      · rw [getElem?_fill_of_lt f X hlt, getElem?_fill_of_lt f I hlt]
      · have hstop : (f.span I.length).stop ≤ i := by
          by_contra hinside
          exact houtside _ hmem ⟨by simpa [span] using hlt, by omega⟩
        rw [← List.head?_drop, hbehind hstop, List.head?_drop]
    rw [hsame]
    exact htokens.noQuote i hi houtside

theorem Swaps.scan_eq (h : Swaps style f I X) :
    style.scan (f.fill X) = style.scan (f.fill I) :=
  (style.isTokenized_scan (f.fill X)).unique h.isTokenized

end Tokens

section Masks

variable {i : Nat}

theorem Swaps.refl (h : Swaps style f I X) : Swaps style f I I :=
  ⟨h.isDistinct, h.mem_literals, h.isInterior, h.isInterior, rfl⟩

theorem Swaps.literals_eq (h : Swaps style f I X) :
    style.literals (f.fill X) = style.literals (f.fill I) :=
  congrArg LiteralScan.spans h.scan_eq

theorem Swaps.symm (h : Swaps style f I X) : Swaps style f X I := by
  refine ⟨h.isDistinct, ?_, h.isInterior', h.isInterior, h.length_eq.symm⟩
  rw [h.literals_eq, h.length_eq]
  exact h.mem_literals

theorem Swaps.shows_iff (h : Swaps style f I X) :
    style.Shows (f.fill X) i ↔ style.Shows (f.fill I) i := by
  have hcloses : ∀ s ∈ style.literals (f.fill I),
      (style.ClosesIn (f.fill X) s ↔ style.ClosesIn (f.fill I) s) := fun s hs =>
    ⟨h.symm.closesIn (h.literals_eq ▸ hs), h.closesIn hs⟩
  rw [LiteralStyle.Shows, LiteralStyle.Shows, h.literals_eq]
  refine or_congr_right (or_congr_right ?_)
  constructor
  · rintro ⟨s, hs, hend, hlast⟩
    exact ⟨s, hs, hend, (hcloses s hs).mp hlast⟩
  · rintro ⟨s, hs, hend, hlast⟩
    exact ⟨s, hs, hend, (hcloses s hs).mpr hlast⟩

/-- Of the literal, the mask shows the quotes at its ends only. -/
theorem Swaps.getElem?_of_shows (h : Swaps style f I X) (hshows : style.Shows (f.fill I) i) :
    (f.fill X)[i]? = (f.fill I)[i]? := by
  by_cases hinside : (f.span I.length).start ≤ i ∧ i < (f.span I.length).stop
  · have hend : i = (f.span I.length).start ∨ i + 1 = (f.span I.length).stop := by
      rcases hshows with houtside | ⟨s, hs, rfl⟩ | ⟨s, hs, hlast, -⟩
      · exact absurd hinside (houtside _ h.mem_literals)
      · have hbound := ((style.isTokenized_scan (f.fill I)).bounds s hs).1
        have hsame := LiteralStyle.eq_of_holds hs h.mem_literals ⟨Nat.le_refl _, hbound⟩ hinside
        exact Or.inl (by rw [hsame])
      · have hbound := ((style.isTokenized_scan (f.fill I)).bounds s hs).1
        have hsame := LiteralStyle.eq_of_holds hs h.mem_literals (by omega) hinside
        exact Or.inr (by rw [← hsame, hlast])
    rw [getElem?_fill_of_end h.length_eq hend, getElem?_fill_of_end rfl hend]
  · rw [not_and_or, Nat.not_le, Nat.not_lt] at hinside
    rcases hinside with hlt | hge
    · rw [getElem?_fill_of_lt f X hlt, getElem?_fill_of_lt f I hlt]
    · rw [getElem?_fill_of_ge h.length_eq hge, getElem?_fill_of_ge rfl hge]

theorem Swaps.maskLiterals_eq (h : Swaps style f I X) :
    style.maskLiterals (f.fill X) = style.maskLiterals (f.fill I) := by
  refine List.ext_getElem? fun i => ?_
  rw [LiteralStyle.getElem?_maskLiterals_eq h.isDistinct.backslash,
    LiteralStyle.getElem?_maskLiterals_eq h.isDistinct.backslash]
  by_cases hshows : style.Shows (f.fill I) i
  · have hshows' := h.shows_iff.mpr hshows
    simp only [if_pos hshows, if_pos hshows', h.getElem?_of_shows hshows]
  · have hhidden : ¬style.Shows (f.fill X) i := fun hshows' => hshows (h.shows_iff.mp hshows')
    have hlength := length_fill (f := f) h.length_eq
    simp only [if_neg hshows, if_neg hhidden]
    by_cases hi : i < (f.fill I).length
    · rw [List.getElem?_eq_getElem hi, List.getElem?_eq_getElem (hlength ▸ hi)]
      rfl
    · rw [List.getElem?_eq_none (Nat.le_of_not_lt hi),
        List.getElem?_eq_none (hlength ▸ Nat.le_of_not_lt hi)]

/-- The code and the comment: the frame of the code has the literal, and the comment is the same. -/
theorem exists_code (style : LiteralStyle) (f : LiteralFrame) (I : Text) :
    ∃ after comment, f.after = after ++ comment ∧ ∀ X, Swaps style f I X →
      style.splitComment (f.fill X) = ({ f with after }.fill X, comment) ∧
        Swaps style { f with after } I X := by
  let code := (style.scan (f.fill I)).codeLength (f.fill I) - (f.span I.length).stop
  have hsplit : ∀ X, Swaps style f I X → style.splitComment (f.fill X) =
      ({ f with after := f.after.take code }.fill X, f.after.drop code) := by
    intro X h
    have hbound := (style.isTokenized_scan (f.fill I)).bounds _ h.mem_literals
    have hcode : (style.scan (f.fill X)).codeLength (f.fill X) =
        (f.before ++ f.literal X).length + code := by
      rw [h.scan_eq, h.codeLength_eq, ← span_stop, h.length_eq]
      exact (Nat.add_sub_cancel' hbound.2).symm
    rw [LiteralStyle.splitComment_eq, hcode, fill, ← List.append_assoc,
      List.take_length_add_append, List.drop_length_add_append, List.append_assoc]
    rfl
  refine ⟨f.after.take code, f.after.drop code, (List.take_append_drop _ _).symm,
    fun X h => ⟨hsplit X h, h.isDistinct, ?_, ?_, ?_, h.length_eq⟩⟩
  · have hliterals := style.literals_splitComment_fst (f.fill I)
    rw [hsplit I h.refl] at hliterals
    rw [hliterals]
    exact h.mem_literals
  · exact ⟨h.isInterior.ne_nil, h.isInterior.quote, h.isInterior.backslash⟩
  · exact ⟨h.isInterior'.ne_nil, h.isInterior'.quote, h.isInterior'.backslash⟩

end Masks

section Cells

open Cell (codes)

variable {i : Nat}

def literalCells (masks literal : Text) : List Cell :=
  (literal.zip masks).map fun p => ⟨p.1, p.2, true, none⟩

variable {masks literal : Text}

structure AreHidden (masks literal : Text) (part : List Cell) : Prop where
  codes_eq : codes part = literal
  masked_eq : part.map (·.masked) = masks
  isProtected : ∀ c ∈ part, c.isProtected = true
  keyword : ∀ c ∈ part, c.keyword = none

theorem areHidden_literalCells (h : literal.length = masks.length) :
    AreHidden masks literal (literalCells masks literal) := by
  refine ⟨?_, ?_, ?_, ?_⟩
  · rw [codes, literalCells, List.map_map]
    exact List.map_fst_zip h.le
  · rw [literalCells, List.map_map]
    exact List.map_snd_zip h.ge
  all_goals
    intro c hc
    obtain ⟨p, -, rfl⟩ := List.mem_map.mp hc
    rfl

theorem AreHidden.exists_cons {part : List Cell} {m : Char} (h : AreHidden masks literal part)
    (hmasks : masks.head? = some m) : ∃ c others, part = c :: others ∧ c.masked = m := by
  rw [← h.masked_eq] at hmasks
  cases part with
  | nil => cases hmasks
  | cons c others => exact ⟨c, others, rfl, Option.some.inj hmasks⟩

theorem AreHidden.ne_nil {part : List Cell} {m : Char} (h : AreHidden masks literal part)
    (hmasks : masks.head? = some m) : part ≠ [] := by
  obtain ⟨c, others, hcons, -⟩ := h.exists_cons hmasks
  rw [hcons]
  exact List.cons_ne_nil c others

theorem codes_mapIdx {cell : Nat → Char × Char → Cell} (hcell : ∀ i p, (cell i p).code = p.1)
    (h : literal.length ≤ masks.length) : codes ((literal.zip masks).mapIdx cell) = literal := by
  have hlength : (codes ((literal.zip masks).mapIdx cell)).length = literal.length := by
    simp [codes, h]
  refine List.ext_getElem hlength fun i _ _ => ?_
  simp [codes, hcell]

theorem Swaps.head_mask (h : Swaps style f I X) :
    (style.maskLiterals (f.fill I))[f.before.length]? = some f.quote := by
  have hshows : style.Shows (f.fill I) f.before.length :=
    Or.inr (Or.inl ⟨_, h.mem_literals, rfl⟩)
  have hquote : (f.fill I)[f.before.length]? = some f.quote :=
    getElem?_fill_of_end rfl (Or.inl rfl)
  simp only [LiteralStyle.getElem?_maskLiterals_eq h.isDistinct.backslash, hquote, if_pos hshows,
    Option.map_some]

/-- The mask of the line has a part for the literal, which starts with the quote. -/
theorem Swaps.exists_masks (h : Swaps style f I X) :
    ∃ front masks back, style.maskLiterals (f.fill I) = front ++ (masks ++ back) ∧
      front.length = f.before.length ∧ masks.length = (f.literal I).length ∧
      back.length = f.after.length ∧ masks.head? = some f.quote := by
  let mask := style.maskLiterals (f.fill I)
  have hlength : mask.length = f.before.length + ((f.literal I).length + f.after.length) := by
    rw [style.length_maskLiterals, fill, List.length_append, List.length_append]
  have hfront : (mask.take f.before.length).length = f.before.length :=
    List.length_take_of_le (by omega)
  have hmasks : ((mask.drop f.before.length).take (f.literal I).length).length =
      (f.literal I).length := by
    refine List.length_take_of_le ?_
    rw [List.length_drop]
    omega
  refine ⟨mask.take f.before.length, (mask.drop f.before.length).take (f.literal I).length,
    (mask.drop f.before.length).drop (f.literal I).length, ?_, hfront, hmasks, ?_, ?_⟩
  · rw [List.take_append_drop, List.take_append_drop]
  · rw [List.length_drop, List.length_drop]
    omega
  · have hpositive : 0 < (f.literal I).length := by
      have hdelimiter := f.length_delimiter_pos
      rw [length_literal]
      omega
    rw [List.head?_take, if_neg (Nat.ne_of_gt hpositive), List.head?_drop]
    exact h.head_mask

theorem Swaps.isProtected (h : Swaps style f I X) (generics : Bool)
    (hi : i < (f.literal I).length) :
    ProtectedSpan.isProtected (ProtectedSpan.spans style generics (f.fill I))
      (i + f.before.length) = true := by
  refine List.any_eq_true.mpr ⟨_, List.mem_append_left _ h.mem_literals, ?_⟩
  rw [length_literal] at hi
  refine Bool.and_eq_true_iff.mpr ⟨decide_eq_true (Nat.le_add_left _ _), decide_eq_true ?_⟩
  change i + f.before.length <
    f.before.length + (f.delimiter.length + I.length + f.delimiter.length)
  omega

/-- The cells of the line differ in the characters of the literal only. -/
theorem exists_cells (generics : Bool) (keywordAt : Nat → Option Text)
    (hI : Swaps style f I I) :
    ∃ first masks last, codes first = f.before ∧ codes last = f.after ∧
      masks.head? = some f.quote ∧ ∀ X, Swaps style f I X →
        ∃ part, AreHidden masks (f.literal X) part ∧
          Cell.ofCode style generics keywordAt (f.fill X) = first ++ (part ++ last) := by
  obtain ⟨front, masks, back, hmask, hfront, hmasks, hback, hquote⟩ := hI.exists_masks
  let spans := ProtectedSpan.spans style generics (f.fill I)
  let cell (i : Nat) (p : Char × Char) : Cell :=
    ⟨p.1, p.2, ProtectedSpan.isProtected spans i,
      if ProtectedSpan.isProtected spans i then none else keywordAt i⟩
  refine ⟨(f.before.zip front).mapIdx cell, masks,
    (f.after.zip back).mapIdx fun i => cell (i + (f.literal I).length + f.before.length),
    codes_mapIdx (fun _ _ => rfl) hfront.ge, codes_mapIdx (fun _ _ => rfl) hback.ge, hquote,
    fun X h => ?_⟩
  have hliteral : (f.literal X).length = (f.literal I).length := by
    rw [length_literal, length_literal, h.length_eq]
  have hcells : Cell.ofCode style generics keywordAt (f.fill X) =
      ((f.fill X).zip (front ++ (masks ++ back))).mapIdx cell := by
    simp only [Cell.ofCode, ProtectedSpan.spans, h.literals_eq, h.maskLiterals_eq, hmask]
    simp only [cell, spans, ProtectedSpan.spans, hmask]
  have hmiddle : ((f.literal X).zip masks).mapIdx (fun i => cell (i + f.before.length)) =
      literalCells masks (f.literal X) := by
    refine List.ext_getElem (by simp [literalCells]) fun i hi _ => ?_
    have hlt : i < (f.literal I).length := by
      simp only [List.length_mapIdx, List.length_zip] at hi
      omega
    simp only [List.getElem_mapIdx, literalCells, List.getElem_map, cell, spans,
      hI.isProtected generics hlt, if_true]
  refine ⟨_, areHidden_literalCells (by rw [hliteral, hmasks]), ?_⟩
  rw [hcells, fill, List.zip_append hfront.symm, List.zip_append (by rw [hliteral, hmasks]),
    List.mapIdx_append, List.mapIdx_append, List.length_zip, List.length_zip, hfront, hliteral,
    hmasks, Nat.min_self, Nat.min_self, hmiddle]

/-- The cells of the code of the line differ in the characters of the literal only, and the comment
is the same. -/
theorem exists_codeCells (generics : Bool) (keywordAt : Text → Nat → Option Text)
    (hI : Swaps style f I I) :
    ∃ first masks last comment, codes first = f.before ∧ codes last ++ comment = f.after ∧
      masks.head? = some f.quote ∧ ∀ X, Swaps style f I X →
        (style.splitComment (f.fill X)).2 = comment ∧
          ∃ part, AreHidden masks (f.literal X) part ∧
            Cell.ofCode style generics
                (keywordAt (style.maskLiterals (style.splitComment (f.fill X)).1))
                (style.splitComment (f.fill X)).1 = first ++ (part ++ last) := by
  obtain ⟨after, comment, hafter, hsplit⟩ := exists_code style f I
  obtain ⟨hcode, hswaps⟩ := hsplit I hI
  obtain ⟨first, masks, last, hfirst, hlast, hmasks, hcells⟩ := exists_cells generics
    (keywordAt (style.maskLiterals (style.splitComment (f.fill I)).1)) hswaps
  refine ⟨first, masks, last, comment, hfirst, by rw [hlast, hafter], hmasks, fun X hX => ?_⟩
  obtain ⟨hcode', hswaps'⟩ := hsplit X hX
  obtain ⟨part, hpart, hsame⟩ := hcells X hswaps'
  refine ⟨by rw [hcode'], part, hpart, ?_⟩
  rw [hcode', hswaps'.maskLiterals_eq]
  rw [hcode] at hsame
  exact hsame

end Cells

end LiteralFrame

end LineLint
