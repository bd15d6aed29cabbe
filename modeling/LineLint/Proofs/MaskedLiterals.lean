import LineLint.Proofs.TokenizedLines
import Mathlib.Data.List.TakeWhile

/-!
# Masked literals

Whether a literal at the end of a line closes is asked twice: the scan goes through it from the left
and skips escapes, the mask goes back over it and counts backslashes. Both give one answer, since
the delimiter itself holds no backslash. What the mask shows can therefore be told by the scan.
-/

namespace LineLint

namespace LiteralStyle

variable {style : LiteralStyle} {line t delimiter body : Text} {s u : Span} {i n : Nat}

section Closing

theorem trailingBackslashes_of_notMem (ht : '\\' ∉ t) : trailingBackslashes t = 0 := by
  rw [trailingBackslashes, List.length_eq_zero_iff, List.eq_nil_iff_forall_not_mem]
  intro c hc
  have hbackslash : c = '\\' := by simpa using List.mem_takeWhile_imp hc
  have hmem := List.mem_reverse.mp ((List.takeWhile_prefix _).subset hc)
  exact ht (hbackslash ▸ hmem)

theorem trailingBackslashes_append_of_notMem {front : Text} (hfront : '\\' ∉ front) (t : Text) :
    trailingBackslashes (front ++ t) = trailingBackslashes t := by
  rw [trailingBackslashes_append, trailingBackslashes_of_notMem hfront]
  split_ifs with hall
  · exact hall.symm
  · rfl

theorem Opens.notMem_delimiter (h : style.Opens t delimiter body) (hquotes : '\\' ∉ style.quotes) :
    '\\' ∉ delimiter := by
  obtain ⟨quote, hquote, hdelimiter⟩ := h.exists_quote
  have hne : '\\' ≠ quote := fun heq => hquotes (heq ▸ hquote)
  rw [hdelimiter]
  split_ifs
  all_goals simp [hne]

/-- The delimiter at the end of a text that it opens, after an even number of backslashes. -/
theorem Opens.isClosed_iff (h : style.Opens t delimiter body) :
    style.isClosed t ⟨0, t.length⟩ = true ↔
      delimiter.length ≤ body.length ∧ delimiter <:+ body ∧
        trailingBackslashes
          (delimiter.drop 1 ++ body.take (body.length - delimiter.length)) % 2 = 0 := by
  obtain ⟨quote, hquote, hhead, hdelimiter⟩ := h.head
  obtain ⟨rest, rfl⟩ : ∃ rest, t = quote :: rest := by
    cases t with
    | nil => cases hhead
    | cons c rest => exact ⟨rest, by rw [Option.some.inj hhead]⟩
  have hat : style.delimiterAt quote (quote :: rest) = delimiter := by
    rw [hdelimiter]
    simp only [delimiterAt, Bool.and_eq_true, List.isPrefixOf_iff_prefix]
  have hlength : (quote :: rest).length = delimiter.length + body.length := by
    rw [h.eq_append, List.length_append]
  have hpositive := List.length_pos_of_ne_nil h.ne_nil
  have htext : Text.slice (quote :: rest) 0 (quote :: rest).length = quote :: rest := by
    rw [Text.slice, List.take_length, List.drop_zero]
  have hlong : 2 * delimiter.length ≤ (quote :: rest).length ↔
      delimiter.length ≤ body.length := by omega
  unfold isClosed
  simp only [List.drop_zero, hat, htext, List.take_length, Bool.and_eq_true, decide_eq_true_eq,
    beq_iff_eq, List.isSuffixOf_iff_suffix, and_assoc, hlong]
  refine and_congr_right fun hle => ?_
  have hbefore : ((quote :: rest).take ((quote :: rest).length - delimiter.length)).drop 1 =
      delimiter.drop 1 ++ body.take (body.length - delimiter.length) := by
    rw [hlength, Nat.add_sub_assoc hle, h.eq_append, List.take_length_add_append,
      List.drop_append_of_le_length hpositive]
  have hsuffix : delimiter <:+ quote :: rest ↔ delimiter <:+ body := by
    rw [h.eq_append]
    refine ⟨fun hends => ?_, fun hends => hends.trans (List.suffix_append _ _)⟩
    exact List.suffix_of_suffix_length_le hends (List.suffix_append _ _) hle
  rw [hbefore, hsuffix]

theorem Opens.isClosed_iff_closesAt (h : style.Opens t delimiter body)
    (hquotes : '\\' ∉ style.quotes) :
    style.isClosed t ⟨0, t.length⟩ = true ↔
      delimiter.length ≤ body.length ∧
        ClosesAt delimiter body (body.length - delimiter.length) := by
  have hnone := h.notMem_delimiter hquotes
  rw [h.isClosed_iff, trailingBackslashes_append_of_notMem fun hmem =>
    hnone (List.mem_of_mem_drop hmem)]
  refine and_congr_right fun hle => ⟨?_, fun hcloses => ⟨?_, hcloses.notEscaped⟩⟩
  · rintro ⟨⟨front, rfl⟩, heven⟩
    rw [List.length_append, Nat.add_sub_cancel] at heven ⊢
    refine ⟨⟨[], by simp⟩, heven, fun hlast => ?_⟩
    rw [List.getElem?_append_right (Nat.le_refl _), Nat.sub_self] at hlast
    exact hnone (List.mem_of_getElem? hlast)
  · have hlength : delimiter.length = (body.drop (body.length - delimiter.length)).length := by
      rw [List.length_drop, Nat.sub_sub_self hle]
    rw [hcloses.occurs.eq_of_length hlength]
    exact List.drop_suffix _ _

theorem isClosed_iff_closes (hquotes : '\\' ∉ style.quotes)
    (hliteral : style.Closes t t.length ∨ style.StaysOpen t) :
    style.isClosed t ⟨0, t.length⟩ = true ↔ style.Closes t t.length := by
  constructor
  · intro hclosed
    refine hliteral.resolve_right ?_
    rintro ⟨delimiter, body, hopens, hnever⟩
    exact hnever _ ((hopens.isClosed_iff_closesAt hquotes).mp hclosed).2
  · rintro ⟨delimiter, body, k, hopens, hfirst, hlength⟩
    have hsplit := congrArg List.length hopens.eq_append
    rw [List.length_append] at hsplit
    have hat : body.length - delimiter.length = k := by omega
    rw [hopens.isClosed_iff_closesAt hquotes, hat]
    exact ⟨by omega, hfirst.toClosesAt⟩

end Closing

section Literals

def ClosesIn (style : LiteralStyle) (line : Text) (s : Span) : Prop :=
  style.Closes (line.drop s.start) (s.stop - s.start)

/-- Of the literals at the end of a line, the mask takes those for closed that the scan closed. -/
theorem isClosed_iff_closesIn (hquotes : '\\' ∉ style.quotes) (hs : s ∈ style.literals line)
    (hstop : s.stop = line.length) : style.isClosed line s = true ↔ style.ClosesIn line s := by
  have htokens := style.isTokenized_scan line
  have hbound := htokens.bounds s hs
  have hle : s.start ≤ line.length := by omega
  have hfront : (line.take s.start).length = s.start := List.length_take_of_le hle
  have hlength : (line.drop s.start).length = s.stop - s.start := by rw [List.length_drop, hstop]
  have hshift : s = Span.shift (line.take s.start).length ⟨0, (line.drop s.start).length⟩ := by
    rw [hfront, hlength, Span.shift, Nat.add_zero, Nat.add_sub_cancel' (Nat.le_of_lt hbound.1)]
  have hclosed : style.isClosed line s =
      style.isClosed (line.drop s.start) ⟨0, (line.drop s.start).length⟩ := by
    rw [← isClosed_shift style (line.take s.start) (line.drop s.start), ← hshift,
      List.take_append_drop]
  have hliteral := (htokens.literals s hs).imp_right And.left
  rw [← hlength] at hliteral
  rw [hclosed, isClosed_iff_closes hquotes hliteral, ClosesIn, hlength]

/-- A literal hides what stands in it, but for its first character and, if it closes, its last. -/
theorem hides_iff (hquotes : '\\' ∉ style.quotes) (hs : s ∈ style.literals line) :
    style.hides line s i = true ↔
      s.start < i ∧ i < s.stop ∧ ¬(i + 1 = s.stop ∧ style.ClosesIn line s) := by
  simp only [hides, Bool.and_eq_true, Bool.or_eq_true, Bool.not_eq_true', beq_iff_eq,
    decide_eq_true_eq, and_assoc]
  refine and_congr_right fun hstart => ?_
  constructor
  · rintro (hinside | ⟨hlt, hstop, hopen⟩)
    · exact ⟨by omega, fun hlast => absurd hlast.1 (by omega)⟩
    · refine ⟨hlt, fun hlast => ?_⟩
      rw [(isClosed_iff_closesIn hquotes hs hstop).mpr hlast.2] at hopen
      cases hopen
  · rintro ⟨hlt, hshows⟩
    by_cases hlast : i + 1 = s.stop
    · have hopen : ¬style.ClosesIn line s := fun hcloses => hshows ⟨hlast, hcloses⟩
      obtain ⟨-, hstop, -⟩ := ((style.isTokenized_scan line).literals s hs).resolve_left hopen
      refine Or.inr ⟨hlt, hstop, ?_⟩
      rwa [Bool.eq_false_iff, Ne, isClosed_iff_closesIn hquotes hs hstop]
    · exact Or.inl (by omega)

theorem eq_of_holds (hs : s ∈ style.literals line) (hu : u ∈ style.literals line)
    (hi : s.start ≤ i ∧ i < s.stop) (hi' : u.start ≤ i ∧ i < u.stop) : s = u := by
  rcases (style.isTokenized_scan line).apart hs hu with hsame | hle | hle
  · exact hsame
  · omega
  · omega

/-- A position that the mask shows: it stands outside the literals, or begins one of them, or ends
one that closes. -/
def Shows (style : LiteralStyle) (line : Text) (i : Nat) : Prop :=
  (∀ s ∈ style.literals line, ¬(s.start ≤ i ∧ i < s.stop)) ∨
    (∃ s ∈ style.literals line, i = s.start) ∨
    ∃ s ∈ style.literals line, i + 1 = s.stop ∧ style.ClosesIn line s

theorem any_hides_iff (hquotes : '\\' ∉ style.quotes) :
    (style.literals line).any (fun s => style.hides line s i) = true ↔ ¬style.Shows line i := by
  rw [List.any_eq_true]
  constructor
  · rintro ⟨s, hs, hhides⟩
    obtain ⟨hstart, hstop, hlast⟩ := (hides_iff hquotes hs).mp hhides
    rintro (houtside | ⟨u, hu, rfl⟩ | ⟨u, hu, hend, hcloses⟩)
    · exact houtside s hs ⟨Nat.le_of_lt hstart, hstop⟩
    · have hbound := ((style.isTokenized_scan line).bounds u hu).1
      have hsame := eq_of_holds hs hu ⟨Nat.le_of_lt hstart, hstop⟩ ⟨Nat.le_refl _, hbound⟩
      exact absurd hstart (hsame ▸ Nat.lt_irrefl _)
    · have hbound := ((style.isTokenized_scan line).bounds u hu).1
      have hsame := eq_of_holds hs hu ⟨Nat.le_of_lt hstart, hstop⟩ (by omega)
      subst hsame
      exact hlast ⟨hend, hcloses⟩
  · intro hshows
    simp only [Shows, not_or, not_exists, not_and, not_forall, not_not] at hshows
    obtain ⟨⟨s, hs, hle, hlt⟩, hfirst, hlast⟩ := hshows
    refine ⟨s, hs, (hides_iff hquotes hs).mpr ⟨?_, hlt, fun hend => hlast s hs hend.1 hend.2⟩⟩
    exact Nat.lt_of_le_of_ne hle fun heq => hfirst s hs heq.symm

open Classical in
theorem getElem?_maskLiterals_eq (hquotes : '\\' ∉ style.quotes) (line : Text) (i : Nat) :
    (style.maskLiterals line)[i]? =
      (line)[i]?.map fun c => if style.Shows line i then c else maskChar := by
  rw [getElem?_maskLiterals]
  congr 1
  funext c
  simp only [any_hides_iff hquotes, ite_not]

end Literals

/-- The mask tells what the scan tells: it shows the line outside the literals and at their quotes,
and is null inside them. The end of a line closes a literal backwards if it does so forwards. -/
theorem maskLiterals_spec (hquotes : '\\' ∉ style.quotes) (line : Text) :
    (style.maskLiterals line).length = line.length ∧
      (∀ i, style.Shows line i → (style.maskLiterals line)[i]? = (line)[i]?) ∧
      (∀ i < line.length, ¬style.Shows line i → (style.maskLiterals line)[i]? = some maskChar) ∧
      ∀ s ∈ style.literals line, s.stop = line.length →
        (style.isClosed line s = true ↔ style.ClosesIn line s) := by
  refine ⟨List.length_mapIdx, fun i hshows => ?_, fun i hi hhidden => ?_, fun s hs hstop => ?_⟩
  · simp only [getElem?_maskLiterals_eq hquotes, if_pos hshows, Option.map_id']
  · simp only [getElem?_maskLiterals_eq hquotes, if_neg hhidden, List.getElem?_eq_getElem hi,
      Option.map_some]
  · exact isClosed_iff_closesIn hquotes hs hstop

def escapedQuote : Text := "x = '''a\\'''".toList

theorem maskLiterals_spec_escapedQuote :
    ∃ style : LiteralStyle, '\\' ∉ style.quotes ∧ style.literals escapedQuote = [⟨4, 12⟩] ∧
      style.maskLiterals escapedQuote = "x = '".toList ++ List.replicate 7 maskChar ∧
      ¬style.ClosesIn escapedQuote ⟨4, 12⟩ := by
  let style : LiteralStyle := { tripleQuotes := true }
  have hquotes : '\\' ∉ style.quotes := by decide
  have hliterals : style.literals escapedQuote = [⟨4, 12⟩] := by decide +kernel
  have hmask : style.maskLiterals escapedQuote = "x = '".toList ++ List.replicate 7 maskChar := by
    decide +kernel
  obtain ⟨-, -, -, hclosed⟩ := maskLiterals_spec hquotes escapedQuote
  have hopen : ¬style.isClosed escapedQuote ⟨4, 12⟩ = true := by decide +kernel
  rw [hclosed ⟨4, 12⟩ (by rw [hliterals]; exact List.mem_singleton_self _) rfl] at hopen
  exact ⟨style, hquotes, hliterals, hmask, hopen⟩

end LiteralStyle

end LineLint
