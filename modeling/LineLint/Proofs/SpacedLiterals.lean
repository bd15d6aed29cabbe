import LineLint.Proofs.PieceContexts
import LineLint.Proofs.TokenizedLines

/-!
# Literals on the spaced line

Where new gaps are put there is no literal, and no comment mark and no run of quotes comes about
that was not there. The spaced line is therefore scanned as the line itself is: it has the same
literals and the same comment, and its mask is the mask of the line with the new gaps.
-/

namespace LineLint

open Cell (codes)

namespace OperatorSpacing

variable {style : LiteralStyle} {cells front old new : List Cell} {comment : Text} {c : Cell}

/-- Cells that a line is made of up to its comment. They are masked as the line is, and the
literals among them are protected. -/
structure IsCode (style : LiteralStyle) (cells : List Cell) (comment : Text) : Prop where
  split_eq : style.splitComment (codes cells ++ comment) = (codes cells, comment)
  masked_eq : style.maskLiterals (codes cells) = cells.map (·.masked)
  isProtected : ∀ s ∈ style.literals (codes cells), ∀ i c, s.start ≤ i → i < s.stop →
    cells[i]? = some c → c.isProtected = true

section Plain

theorem IsCode.commentStarts_eq (h : IsCode style (c :: cells) comment) :
    style.commentStarts (c.code :: (codes cells ++ comment)) = false := by
  by_contra hstarts
  have hsplit := LiteralStyle.splitComment_of_commentStarts (by simpa using hstarts)
  rw [← List.cons_append, ← Cell.codes_cons, h.split_eq] at hsplit
  cases (Prod.mk.inj hsplit).1

theorem commentStarts_of_append {t : Text}
    (h : style.commentStarts (c.code :: (codes cells ++ t)) = false) :
    style.commentStarts (c.code :: codes cells) = false := by
  have htake := LiteralStyle.commentStarts_take (n := (codes (c :: cells)).length) h
  rwa [← List.cons_append, ← Cell.codes_cons, List.take_left] at htake

theorem IsCode.of_cons (h : IsCode style (c :: cells) comment) (hc : c.code ∉ style.quotes) :
    c.masked = c.code ∧ IsCode style cells comment := by
  have hsplit := h.split_eq
  have hmasked := h.masked_eq
  have hliteral := h.isProtected
  have hcode := commentStarts_of_append h.commentStarts_eq
  rw [Cell.codes_cons, List.cons_append,
    LiteralStyle.splitComment_cons_of_plain h.commentStarts_eq hc, Prod.mk.injEq] at hsplit
  rw [Cell.codes_cons, LiteralStyle.maskLiterals_cons_of_plain hcode hc,
    List.map_cons, List.cons.injEq] at hmasked
  rw [Cell.codes_cons, LiteralStyle.literals_cons_of_plain hcode hc] at hliteral
  refine ⟨hmasked.1.symm, Prod.ext (List.cons.inj hsplit.1).2 hsplit.2, hmasked.2, ?_⟩
  intro s hs i d hstart hstop hd
  refine hliteral (s.shift 1) (List.mem_map_of_mem hs) (1 + i) d ?_ ?_ ?_
  · exact Nat.add_le_add_left hstart 1
  · exact Nat.add_lt_add_left hstop 1
  · rwa [Nat.add_comm, List.getElem?_cons_succ]

/-- A character that is no quote, and with which no comment starts, may be put before code. -/
theorem IsCode.cons (h : IsCode style cells comment) (hc : c.code ∉ style.quotes)
    (hcomment : style.commentStarts (c.code :: (codes cells ++ comment)) = false)
    (hmasked : c.masked = c.code) : IsCode style (c :: cells) comment := by
  have hcode := commentStarts_of_append hcomment
  refine ⟨?_, ?_, ?_⟩
  · rw [Cell.codes_cons, List.cons_append, LiteralStyle.splitComment_cons_of_plain hcomment hc,
      h.split_eq]
  · rw [Cell.codes_cons, LiteralStyle.maskLiterals_cons_of_plain hcode hc, h.masked_eq,
      List.map_cons, hmasked]
  · rw [Cell.codes_cons, LiteralStyle.literals_cons_of_plain hcode hc]
    intro s hs i d hstart hstop hd
    obtain ⟨part, hpart, rfl⟩ := List.mem_map.mp hs
    obtain ⟨i, rfl⟩ : ∃ k, i = k + 1 := ⟨i - 1, by simp only [Span.shift] at hstart; omega⟩
    refine h.isProtected part hpart i d ?_ ?_ (by simpa using hd)
    · simp only [Span.shift] at hstart
      omega
    · simp only [Span.shift] at hstop
      omega

theorem IsCode.of_append (h : IsCode style (front ++ cells) comment)
    (hfront : ∀ c ∈ front, c.code ∉ style.quotes) : IsCode style cells comment := by
  induction front with
  | nil => exact h
  | cons c front ih =>
      obtain ⟨hc, hrest⟩ := List.forall_mem_cons.mp hfront
      exact ih (h.of_cons hc).2 hrest

theorem IsCode.append_congr (hstyle : style.IsSolid) (h : IsCode style (front ++ old) comment)
    (hfront : ∀ c ∈ front, c.code ∉ style.quotes) (hnew : IsCode style new comment)
    (hstarts : Text.StartsAs (codes new ++ comment) (codes old ++ comment)) :
    IsCode style (front ++ new) comment := by
  induction front with
  | nil => exact hnew
  | cons c front ih =>
      obtain ⟨hc, hrest⟩ := List.forall_mem_cons.mp hfront
      obtain ⟨hmasked, hcode⟩ := h.of_cons hc
      refine (ih hcode hrest).cons hc ?_ hmasked
      refine LiteralStyle.commentStarts_congr hstyle ?_ h.commentStarts_eq
      simpa using hstarts.append_left (codes (c :: front))

theorem IsCode.gap_append (hstyle : style.IsSolid) {gap : List Cell}
    (hgap : ∀ c ∈ gap, c.IsGap ∧ c.masked = c.code) (h : IsCode style cells comment) :
    IsCode style (gap ++ cells) comment := by
  induction gap with
  | nil => exact h
  | cons c gap ih =>
      obtain ⟨⟨hblank, hmasked⟩, hrest⟩ := List.forall_mem_cons.mp hgap
      refine (ih hrest).cons (fun hquote => ?_) ?_ hmasked
      · have hshows := hstyle.quotes c.code hquote
        rw [hblank.blank] at hshows
        cases hshows
      · exact LiteralStyle.commentStarts_blank_cons hstyle hblank.blank

end Plain

section Literals

variable {literal : List Cell}

theorem isLiteralBefore_codes (hstyle : style.IsSolid)
    (h : style.IsLiteralBefore (codes literal) (codes cells ++ comment)) :
    style.IsLiteralBefore (codes literal) (codes cells) :=
  h.congr hstyle (Text.startsAs_of_prefix (List.prefix_append _ _))

theorem IsCode.of_literal (hstyle : style.IsSolid) (h : IsCode style (literal ++ cells) comment)
    (hliteral : style.IsLiteralBefore (codes literal) (codes cells ++ comment)) :
    literal.map (·.masked) = style.literalMask (codes literal) (codes cells).isEmpty ∧
      (∀ c ∈ literal, c.isProtected = true) ∧ IsCode style cells comment := by
  have hown := isLiteralBefore_codes hstyle hliteral
  have hlength : (codes literal).length = literal.length := List.length_map _
  have hsplit := h.split_eq
  have hmasked := h.masked_eq
  have hprotected := h.isProtected
  rw [Cell.codes_append, List.append_assoc, hliteral.splitComment_eq, Prod.mk.injEq] at hsplit
  rw [Cell.codes_append, hown.maskLiterals_eq, List.map_append] at hmasked
  rw [Cell.codes_append, hown.literals_eq, hlength] at hprotected
  have hmasks := List.append_inj hmasked (by simp [LiteralStyle.literalMask, hlength])
  refine ⟨hmasks.1.symm, fun c hc => ?_, ?_, hmasks.2, fun s hs i c hstart hstop hc => ?_⟩
  · obtain ⟨i, hi⟩ := List.mem_iff_getElem?.mp hc
    have hlt : i < literal.length := (List.getElem?_eq_some_iff.mp hi).1
    refine hprotected ⟨0, literal.length⟩ List.mem_cons_self i c (Nat.zero_le i) hlt ?_
    rw [List.getElem?_append_left hlt, hi]
  · exact Prod.ext (List.append_cancel_left hsplit.1) hsplit.2
  · refine hprotected (s.shift literal.length) ?_ (literal.length + i) c ?_ ?_ ?_
    · exact List.mem_cons_of_mem _ (List.mem_map_of_mem hs)
    · exact Nat.add_le_add_left hstart _
    · exact Nat.add_lt_add_left hstop _
    · rwa [List.getElem?_append_right (Nat.le_add_right _ _), Nat.add_sub_cancel_left]

theorem IsCode.literal_append_congr (hstyle : style.IsSolid)
    (h : IsCode style (literal ++ old) comment)
    (hliteral : style.IsLiteralBefore (codes literal) (codes old ++ comment))
    (hnew : IsCode style new comment)
    (hstarts : Text.StartsAs (codes new ++ comment) (codes old ++ comment))
    (hempty : (codes new).isEmpty = (codes old).isEmpty) :
    IsCode style (literal ++ new) comment := by
  obtain ⟨hmasked, hprotected, -⟩ := h.of_literal hstyle hliteral
  have hlonger := hliteral.congr hstyle hstarts
  have hown := isLiteralBefore_codes hstyle hlonger
  have hlength : (codes literal).length = literal.length := List.length_map _
  refine ⟨?_, ?_, ?_⟩
  · rw [Cell.codes_append, List.append_assoc, hlonger.splitComment_eq, hnew.split_eq]
  · rw [Cell.codes_append, hown.maskLiterals_eq, List.map_append, hmasked, hnew.masked_eq, hempty]
  · rw [Cell.codes_append, hown.literals_eq, hlength]
    intro s hs i c hstart hstop hc
    rcases List.mem_cons.mp hs with rfl | hs
    · rw [List.getElem?_append_left hstop] at hc
      exact hprotected c (List.mem_of_getElem? hc)
    · obtain ⟨part, hpart, rfl⟩ := List.mem_map.mp hs
      obtain ⟨i, rfl⟩ : ∃ k, i = literal.length + k :=
        ⟨i - literal.length, by simp only [Span.shift] at hstart; omega⟩
      rw [List.getElem?_append_right (Nat.le_add_right _ _), Nat.add_sub_cancel_left] at hc
      exact hnew.isProtected part hpart i c (Nat.le_of_add_le_add_left hstart)
        (Nat.lt_of_add_lt_add_left hstop) hc

/-- A quote opens a literal that goes on to the end, or one that closes before other code. -/
theorem IsCode.literal_cases (h : IsCode style (c :: cells) comment)
    (hquote : c.code ∈ style.quotes) :
    (∃ body rest, cells = body ++ rest ∧
      style.IsLiteralBefore (codes (c :: body)) (codes rest ++ comment)) ∨
      ∀ d ∈ c :: cells, d.isProtected = true := by
  rcases LiteralStyle.isLiteralBefore_or_open h.commentStarts_eq hquote with
    ⟨body, after, hsplit, hliteral⟩ | hopen
  · left
    have hcode := h.split_eq
    rw [Cell.codes_cons, List.cons_append, hsplit, ← List.cons_append, hliteral.splitComment_eq,
      Prod.mk.injEq, List.cons_append, List.cons.injEq] at hcode
    obtain ⟨first, rest, rfl, hfirst, hrest⟩ := List.map_eq_append_iff.mp hcode.1.2.symm
    have hfirst : codes first = body := hfirst
    refine ⟨first, rest, rfl, ?_⟩
    rw [← hfirst, Cell.codes_append, List.append_assoc] at hsplit
    rw [Cell.codes_cons, hfirst, List.append_cancel_left hsplit]
    exact hliteral
  · right
    intro d hd
    obtain ⟨i, hi⟩ := List.mem_iff_getElem?.mp hd
    have hlt : i < (c :: cells).length := (List.getElem?_eq_some_iff.mp hi).1
    have hliterals : style.literals (codes (c :: cells)) =
        [⟨0, (c.code :: (codes cells ++ comment)).length⟩] := by
      have hcode : (style.splitComment (codes (c :: cells) ++ comment)).1 = codes (c :: cells) :=
        congrArg Prod.fst h.split_eq
      rw [← hcode, LiteralStyle.literals_splitComment_fst]
      exact congrArg LiteralScan.spans hopen
    refine h.isProtected _ (hliterals ▸ List.mem_singleton_self _) i d (Nat.zero_le i) ?_ hi
    simp only [List.length_cons, List.length_append, codes, List.length_map] at hlt ⊢
    omega

end Literals

section Spread

variable {ps : List Piece} {tail : List Cell} {behind : Bool}

theorem codes_isEmpty_spread (hsound : ∀ p ∈ ps, p.IsSound) (behind : Bool) :
    (codes (join (spread behind ps) ++ tail)).isEmpty = (codes (join ps ++ tail)).isEmpty := by
  cases ps with
  | nil => rfl
  | cons p ps =>
      have hne := (hsound p List.mem_cons_self).cells_ne_nil
      rw [spread_cons, join_cons, join_cons, Bool.eq_iff_iff]
      simp [codes, hne]

theorem Piece.IsSound.exists_eq_quote {p : Piece} (hp : p.IsSound)
    (hquotes : ∀ quote ∈ style.quotes, quote ∉ operatorChars) {c : Cell} (hc : c ∈ p.cells)
    (hquote : c.code ∈ style.quotes) : p.cells = [c] ∧ p.isSetOff = false := by
  rcases hp.shape with ⟨d, hcells, -, hset⟩ | ⟨-, hchars⟩
  · rw [hcells, List.mem_singleton] at hc
    exact ⟨hc ▸ hcells, hset⟩
  · obtain ⟨-, hmasked, hchar⟩ := hchars c hc
    exact absurd (hmasked ▸ hchar) (hquotes c.code hquote)

theorem eq_nil_of_join_eq_nil (hsound : ∀ p ∈ ps, p.IsSound) (h : join ps ++ tail = []) :
    ps = [] := by
  by_contra hne
  obtain ⟨p, others, rfl⟩ := List.exists_cons_of_ne_nil hne
  have hp := (hsound p List.mem_cons_self).cells_ne_nil
  simp [hp] at h

/-- A literal takes up whole pieces, and what follows it is spread as if it stood alone. -/
theorem isCode_spread_literal (hstyle : style.IsSolid) (hsound : ∀ p ∈ ps, p.IsSound)
    (htail : ∀ c ∈ tail, c.IsGap) {c : Cell} (hquote : c.code ∈ style.quotes)
    (h : IsCode style (c :: (join ps ++ tail)) comment)
    (hbehind : ∀ lit back, ps = lit ++ back → IsCode style (join back ++ tail) comment →
      IsCode style (join (spread false back) ++ tail) comment) :
    IsCode style (c :: (join (spread false ps) ++ tail)) comment := by
  rcases h.literal_cases hquote with ⟨body, rest, hsplit, hliteral⟩ | hprotected
  · rw [hsplit, ← List.cons_append] at h
    obtain ⟨-, hprotected, hcode⟩ := h.of_literal hstyle hliteral
    obtain ⟨lit, back, rfl, rfl, rfl, hspread, hends⟩ :=
      exists_protected_pieces hsound htail hsplit
        fun d hd => hprotected d (List.mem_cons_of_mem c hd)
    have hback := (List.forall_mem_append.mp hsound).2
    rw [spread_append, hspread, hends, join_append, List.append_assoc, ← List.cons_append]
    exact IsCode.literal_append_congr hstyle h hliteral (hbehind lit back rfl hcode)
      (startsAs_codes_spread hback) (codes_isEmpty_spread hback false)
  · -- the literal goes on to the end
    have hwhole : join ps ++ tail = (join ps ++ tail) ++ [] := (List.append_nil _).symm
    obtain ⟨lit, back, rfl, -, hnil, hspread, -⟩ :=
      exists_protected_pieces hsound htail hwhole
        fun d hd => hprotected d (List.mem_cons_of_mem c hd)
    have hback := eq_nil_of_join_eq_nil (List.forall_mem_append.mp hsound).2 hnil
    rw [hback, List.append_nil] at h ⊢
    rwa [hspread]

/-- The spaced line is scanned as the line itself is. -/
theorem isCode_spread (hstyle : style.IsSolid)
    (hquotes : ∀ quote ∈ style.quotes, quote ∉ operatorChars) (hsound : ∀ p ∈ ps, p.IsSound)
    (htail : ∀ c ∈ tail, c.IsGap) (h : IsCode style (join ps ++ tail) comment) :
    IsCode style (join (spread behind ps) ++ tail) comment := by
  -- a literal takes up many pieces at once
  induction hn : ps.length using Nat.strong_induction_on generalizing ps behind with
  | _ n ih =>
      cases ps with
      | nil => exact h
      | cons p ps =>
          obtain ⟨hp, hps⟩ := List.forall_mem_cons.mp hsound
          have hgap : ∀ c ∈ p.gap, c.code ∉ style.quotes := by
            intro c hc hquote
            have hshows := hstyle.quotes c.code hquote
            rw [(hp.gap c hc).1.blank] at hshows
            cases hshows
          rw [join_cons, List.append_assoc, List.append_assoc] at h
          replace h := h.of_append hgap
          rw [spread_cons, join_cons, List.append_assoc, List.append_assoc]
          refine IsCode.gap_append hstyle (hp.newGap behind) ?_
          by_cases hopens : ∀ c ∈ p.cells, c.code ∉ style.quotes
          · have hrest : IsCode style (join (spread p.isSetOff ps) ++ tail) comment :=
              ih ps.length (by simp [← hn]) hps (h.of_append hopens) rfl
            exact IsCode.append_congr hstyle h hopens hrest (startsAs_codes_spread hps)
          · push Not at hopens
            obtain ⟨c, hc, hquote⟩ := hopens
            obtain ⟨hcells, hset⟩ := hp.exists_eq_quote hquotes hc hquote
            rw [hcells, List.singleton_append] at h ⊢
            rw [hset]
            refine isCode_spread_literal hstyle hps htail hquote h fun lit back hlit hback => ?_
            rw [hlit] at hps hn
            exact ih back.length (by rw [← hn, List.length_cons, List.length_append]; omega)
              (List.forall_mem_append.mp hps).2 hback rfl

end Spread

end OperatorSpacing

end LineLint
