import LineLint.Proofs.CommaGaps
import LineLint.Proofs.CopiedParts
import LineLint.Proofs.LiteralFrames
import LineLint.Proofs.SettledPieces
import Mathlib.Data.List.Find

/-!
# Spacing around a literal

A literal cuts the reading of a line in two. What is read before it stops at its quote, and what is
read behind it depends on its masked characters alone. The new line is therefore a frame for the
interior of the literal, the same one for every interior.
-/

namespace LineLint

open Cell (codes)
open LiteralFrame (AreHidden)

namespace OperatorSpacing

namespace Reading

/-- One reading and then another; the blanks that end the first one are the gap of the second. -/
def append (d e : Reading) : Reading :=
  ⟨d.pieces ++ (e.consGap d.tail).pieces, (e.consGap d.tail).tail⟩

def ofCells (part : List Cell) : Reading := ⟨part.map fun c => { cells := [c] }, []⟩

variable {p : Piece} {c : Cell} {gap part : List Cell} {d e : Reading}

theorem consGap_nil (d : Reading) : d.consGap [] = d := by
  rcases d with ⟨_ | ⟨p, ps⟩, tail⟩ <;> simp [consGap]

theorem cons_append : (d.cons p).append e = (d.append e).cons p := rfl

theorem consGap_append : (d.consGap gap).append e = (d.append e).consGap gap := by
  rcases d with ⟨_ | ⟨p, ps⟩, tail⟩
  · exact consGap_consGap.symm
  · rfl

theorem cells_append : (d.append e).cells = d.cells ++ e.cells := by
  have hback : join (e.consGap d.tail).pieces ++ (e.consGap d.tail).tail = d.tail ++ e.cells :=
    cells_consGap
  change join (d.pieces ++ (e.consGap d.tail).pieces) ++ (e.consGap d.tail).tail =
    join d.pieces ++ d.tail ++ e.cells
  rw [join_append, List.append_assoc, hback, List.append_assoc]

theorem cells_ofCells (part : List Cell) : (ofCells part).cells = part := by
  simp [cells, ofCells, join, List.flatMap_map]

theorem tightOperators_append :
    (d.append e).tightOperators = d.tightOperators ++ e.tightOperators := by
  have hback : (e.consGap d.tail).tightOperators = e.tightOperators := tightOperators_consGap
  rw [← hback]
  simp [tightOperators, append]

theorem calls_append : (d.append e).calls = d.calls ++ e.calls := by
  have hback : (e.consGap d.tail).calls = e.calls := calls_consGap
  rw [← hback]
  simp [calls, append]

theorem tightOperators_ofCells (part : List Cell) : (ofCells part).tightOperators = [] := by
  simp [tightOperators, ofCells]

theorem calls_ofCells (hkeyword : ∀ c ∈ part, c.keyword = none) : (ofCells part).calls = [] := by
  simpa [calls, ofCells, Piece.keyword] using hkeyword

theorem append_ofCells_append (c : Cell) (part : List Cell) (d e : Reading) :
    d.append ((ofCells (c :: part)).append e) =
      ⟨d.pieces ++ { gap := d.tail, cells := [c] } :: ((ofCells part).pieces ++ e.pieces),
        e.tail⟩ := by
  have hback : (ofCells (c :: part)).append e =
      ⟨{ cells := [c] } :: ((ofCells part).pieces ++ e.pieces), e.tail⟩ := by
    change mk ({ cells := [c] } :: ((ofCells part).pieces ++ (e.consGap []).pieces))
      (e.consGap []).tail = _
    rw [consGap_nil]
  rw [hback]
  simp only [append, consGap, List.append_nil]

/-- Behind cells that are read one by one the line is spaced as it would be on its own, and before
them there is no other gap than before any other character. -/
theorem spaced_append_ofCells (hne : part ≠ []) (hkeyword : ∀ c ∈ part, c.keyword = none)
    (d e : Reading) :
    (d.append ((ofCells part).append e)).spaced =
      join (spread false d.pieces) ++ (if endsSetOff false d.pieces then [Cell.space] else d.tail) ++
        (part ++ e.spaced) := by
  obtain ⟨c, part, rfl⟩ := List.exists_cons_of_ne_nil hne
  obtain ⟨hc, hpart⟩ := List.forall_mem_cons.mp hkeyword
  let singles := (ofCells part).pieces
  have hkept : spread false singles = singles ∧ endsSetOff false singles = false := by
    refine spread_of_kept ?_ ?_
    · simp [singles, ofCells]
    · simpa [singles, ofCells, Piece.keyword] using hpart
  have hjoin : join singles = part := by
    have hcells := cells_ofCells part
    rwa [cells, ofCells, List.append_nil] at hcells
  have hgap : Piece.newGap (endsSetOff false d.pieces) { gap := d.tail, cells := [c] } =
      if endsSetOff false d.pieces then [Cell.space] else d.tail := by
    simp [Piece.newGap, callGap, Piece.keyword, hc]
  rw [append_ofCells_append, spaced, spread_append, spread_cons, spread_append, hkept.1, hkept.2,
    hgap]
  simp [hjoin, spaced]

theorem solid_spaced (hsound : ∀ p ∈ d.pieces, p.IsSound) :
    Text.solid (codes d.spaced) = Text.solid (codes d.cells) := by
  rw [spaced, cells, Cell.codes_append, Cell.codes_append, Text.solid_append, Text.solid_append,
    solid_spread hsound]

end Reading

section Cuts

variable {r : OperatorSpacing} {tokens : List Text} {m : Char} {reversed token : Text}
  {depth level : Nat} {cell c : Cell} {front rest : List Cell}

/-- Cells that are read up to a character with the mask `m`, whatever this character is and whatever
stands behind it. -/
def CutsAt (r : OperatorSpacing) (tokens : List Text) (m : Char) (reversed : Text) (depth : Nat)
    (front : List Cell) : Prop :=
  ∃ (d : Reading) (passed : Text) (level : Nat), d.cells = front ∧
    ∀ c rest, c.masked = m → r.read tokens reversed depth (front ++ c :: rest) =
      d.append (r.read tokens passed level (c :: rest))

theorem cutsAt_nil : CutsAt r tokens m reversed depth [] :=
  ⟨⟨[], []⟩, reversed, depth, rfl, fun _ _ _ => (Reading.consGap_nil _).symm⟩

theorem CutsAt.cons (hread : ∀ c rest, c.masked = m →
      r.read tokens reversed depth (cell :: (front ++ c :: rest)) =
        (r.read tokens (cell.masked :: reversed) level (front ++ c :: rest)).cons
          { cells := [cell] })
    (h : CutsAt r tokens m (cell.masked :: reversed) level front) :
    CutsAt r tokens m reversed depth (cell :: front) := by
  obtain ⟨d, passed, stop, hcells, hcut⟩ := h
  refine ⟨d.cons { cells := [cell] }, passed, stop, ?_, fun c rest hc => ?_⟩
  · rw [Reading.cells_cons, hcells]
    rfl
  · rw [List.cons_append, hread c rest hc, hcut c rest hc, Reading.cons_append]

theorem CutsAt.consGap (hread : ∀ c rest, c.masked = m →
      r.read tokens reversed depth (cell :: (front ++ c :: rest)) =
        (r.read tokens (cell.masked :: reversed) level (front ++ c :: rest)).consGap [cell])
    (h : CutsAt r tokens m (cell.masked :: reversed) level front) :
    CutsAt r tokens m reversed depth (cell :: front) := by
  obtain ⟨d, passed, stop, hcells, hcut⟩ := h
  refine ⟨d.consGap [cell], passed, stop, ?_, fun c rest hc => ?_⟩
  · rw [Reading.cells_consGap, hcells]
    rfl
  · rw [List.cons_append, hread c rest hc, hcut c rest hc, Reading.consGap_append]

theorem CutsAt.operator (hcell : cell.isProtected = false) (hpositive : 0 < token.length)
    (hfits : token.length ≤ front.length + 1)
    (hat : ∀ c rest, c.masked = m → operatorAt? tokens (cell :: (front ++ c :: rest)) = some token)
    (h : CutsAt r tokens m (token.reverse ++ reversed) (depthAfter depth cell.masked)
      (front.drop (token.length - 1))) : CutsAt r tokens m reversed depth (cell :: front) := by
  obtain ⟨d, passed, stop, hcells, hcut⟩ := h
  let after : List Cell := front.drop (token.length - 1) ++ [⟨m, m, true, none⟩]
  let isSetOff := r.setsOff token reversed (depthAfter depth cell.masked) after
  refine ⟨d.cons { cells := (cell :: front).take token.length
                   isSetOff
                   isTight := isSetOff && (tightBefore reversed || tightAfter after) },
    passed, stop, ?_, fun c rest hc => ?_⟩
  · obtain ⟨k, hk⟩ := Nat.exists_eq_add_of_le' hpositive
    rw [Reading.cells_cons, hcells, hk]
    simp
  · have hdrop : (front ++ c :: rest).drop (token.length - 1) =
        front.drop (token.length - 1) ++ c :: rest :=
      List.drop_append_of_le_length (by omega)
    have htake : (cell :: (front ++ c :: rest)).take token.length =
        (cell :: front).take token.length := by
      rw [← List.cons_append]
      exact List.take_append_of_le_length hfits
    have hhead : (maskOf (front.drop (token.length - 1) ++ c :: rest)).head? =
        (maskOf after).head? := by
      simp only [maskOf, after, List.map_append, List.map_cons, hc, List.head?_append,
        List.head?_cons]
    rw [List.cons_append, read_token hcell (hat c rest hc)]
    simp only [hdrop, htake, setsOff_of_head hhead, tightAfter_of_head hhead, hcut c rest hc,
      Reading.cons_append, isSetOff]

theorem read_blank (hcell : cell.isProtected = false)
    (hnone : operatorAt? tokens (cell :: rest) = none) (hblank : isSpaceOrTab cell.code = true) :
    r.read tokens reversed depth (cell :: rest) =
      (r.read tokens (cell.masked :: reversed) (depthAfter depth cell.masked) rest).consGap
        [cell] := by
  rw [read, if_neg (by simp [hcell])]
  simp only [hnone, hblank, if_true]

theorem operatorAt?_append (htokens : ∀ token ∈ tokens, m ∉ token)
    (hc : c.masked = m) : operatorAt? tokens (front ++ c :: rest) = operatorAt? tokens front := by
  have hmask : maskOf (front ++ c :: rest) = maskOf front ++ m :: maskOf rest := by
    simp [maskOf, hc]
  rw [operatorAt?_eq, operatorAt?_eq, hmask]
  refine List.find?_congr fun token htoken => ?_
  exact Text.isPrefixOf_append_cons (htokens token htoken) _ _

theorem cutsAt (htokens : ∀ token ∈ tokens, token ≠ [] ∧ m ∉ token) (front : List Cell)
    (reversed : Text) (depth : Nat) : CutsAt r tokens m reversed depth front := by
  -- an operator takes up many cells at once
  induction hn : front.length using Nat.strong_induction_on generalizing front reversed depth with
  | _ n ih =>
      cases front with
      | nil => exact cutsAt_nil
      | cons cell front =>
          have hlt : front.length < n := by
            rw [← hn]
            exact Nat.lt_succ_self _
          by_cases hprotected : cell.isProtected = true
          · exact CutsAt.cons (fun c rest _ => read_protected hprotected)
              (ih front.length hlt front _ depth rfl)
          · rw [Bool.not_eq_true] at hprotected
            have hat : ∀ c rest, c.masked = m → operatorAt? tokens (cell :: (front ++ c :: rest)) =
                operatorAt? tokens (cell :: front) := by
              intro c rest hc
              rw [← List.cons_append, operatorAt?_append (fun token h => (htokens token h).2) hc]
            cases htoken : operatorAt? tokens (cell :: front) with
            | none =>
                have hrest := ih front.length hlt front (cell.masked :: reversed)
                  (depthAfter depth cell.masked) rfl
                have hnone := fun c rest hc => (hat c rest hc).trans htoken
                cases hblank : isSpaceOrTab cell.code with
                | true =>
                    exact hrest.consGap fun c rest hc =>
                      read_blank hprotected (hnone c rest hc) hblank
                | false =>
                    exact hrest.cons fun c rest hc =>
                      read_single hprotected (hnone c rest hc) hblank
            | some token =>
                have hmem : token ∈ tokens := List.mem_of_find?_eq_some htoken
                have hpositive : 0 < token.length := List.length_pos_iff.mpr (htokens token hmem).1
                have hfits : token.length ≤ (cell :: front).length := by
                  have hprefix := (prefix_of_operatorAt? htoken).length_le
                  rwa [maskOf, List.length_map] at hprefix
                refine CutsAt.operator hprotected hpositive hfits
                  (fun c rest hc => (hat c rest hc).trans htoken) ?_
                exact ih (front.drop (token.length - 1)).length (by rw [List.length_drop]; omega) _ _
                  _ rfl

/-- Protected cells are read one by one. -/
theorem read_append_of_protected {part : List Cell} (h : ∀ c ∈ part, c.isProtected = true) :
    r.read tokens reversed depth (part ++ rest) =
      (Reading.ofCells part).append
        (r.read tokens ((maskOf part).reverse ++ reversed) depth rest) := by
  induction part generalizing reversed with
  | nil => exact (Reading.consGap_nil _).symm
  | cons c part ih =>
      obtain ⟨hc, hpart⟩ := List.forall_mem_cons.mp h
      have hpassed : (maskOf (c :: part)).reverse ++ reversed =
          (maskOf part).reverse ++ c.masked :: reversed := by
        simp [maskOf]
      rw [List.cons_append, read_protected hc, ih hpart, hpassed]
      rfl

/-- A literal cuts what it stands in, whatever characters it hides. -/
theorem exists_read_append (r : OperatorSpacing) (reversed : Text) (depth : Nat)
    (htokens : ∀ token ∈ tokens, token ≠ [] ∧ m ∉ token) {masks : Text}
    (hmasks : masks.head? = some m) (first last : List Cell) :
    ∃ d e : Reading, d.cells = first ∧ ∀ literal part, AreHidden masks literal part →
      r.read tokens reversed depth (first ++ (part ++ last)) =
        d.append ((Reading.ofCells part).append e) := by
  obtain ⟨d, passed, level, hcells, hcut⟩ := @cutsAt r _ _ htokens first reversed depth
  refine ⟨d, r.read tokens (masks.reverse ++ passed) level last, hcells, fun literal part hpart => ?_⟩
  obtain ⟨c, others, hcons, hc⟩ := hpart.exists_cons hmasks
  have hmasked : maskOf part = masks := hpart.masked_eq
  rw [hcons, List.cons_append, hcut c (others ++ last) hc, ← List.cons_append, ← hcons,
    read_append_of_protected hpart.isProtected, hmasked]

end Cuts

end OperatorSpacing

/-- A frame with the same literal as another one, and with no other characters before and behind it
but for spaces and tabs. -/
structure LiteralFrame.Respaces (g f : LiteralFrame) : Prop where
  quote_eq : g.quote = f.quote
  isTriple_eq : g.isTriple = f.isTriple
  before_eq : g.before.solid = f.before.solid
  after_eq : g.after.solid = f.after.solid

open LiteralFrame (Swaps)

namespace OperatorSpacing

variable {r : OperatorSpacing} {f : LiteralFrame} {I : Text}

/-- What is read before the literal and behind it is told by the frame. -/
theorem exists_reading_fill (h : r.IsRegular) (hI : Swaps r.style f I I) :
    ∃ (d e : Reading) (masks comment : Text), codes d.cells = f.before ∧
      codes e.cells ++ comment = f.after ∧ masks.head? = some f.quote ∧
        ∀ X, Swaps r.style f I X → (r.style.splitComment (f.fill X)).2 = comment ∧
          ∃ part, AreHidden masks (f.literal X) part ∧
            r.reading (f.fill X) = d.append ((Reading.ofCells part).append e) := by
  obtain ⟨first, masks, last, comment, hfirst, hlast, hmasks, hcells⟩ :=
    LiteralFrame.exists_codeCells r.generics (fun mask i => (((keywordCall
      r.table.controlKeywords).findAll mask).map fun m => (m.stop - 1, m.text "keyword")).lookup i)
      hI
  have htokens : ∀ token ∈ r.table.byLength, token ≠ [] ∧ f.quote ∉ token := fun token htoken =>
    ⟨(h.operators token htoken).1, fun hmem =>
      (h.quoteChars _ hI.quote_mem).1 ((h.operators token htoken).2 _ hmem)⟩
  obtain ⟨d, e, hd, hread⟩ := exists_read_append r [] 0 htokens hmasks first last
  have hreading : ∀ X, Swaps r.style f I X → (r.style.splitComment (f.fill X)).2 = comment ∧
      ∃ part, AreHidden masks (f.literal X) part ∧
        r.codeCells (f.fill X) = first ++ (part ++ last) ∧
        r.reading (f.fill X) = d.append ((Reading.ofCells part).append e) := by
    intro X hX
    obtain ⟨hcomment, part, hpart, hcode⟩ := hcells X hX
    refine ⟨hcomment, part, hpart, hcode, ?_⟩
    rw [reading, ← hread _ part hpart, ← hcode]
    rfl
  have he : e.cells = last := by
    obtain ⟨-, part, -, hcode, hsplit⟩ := hreading I hI
    have hall := (reads_reading h (f.fill I)).cells_eq
    rw [hsplit, hcode, Reading.cells_append, Reading.cells_append, Reading.cells_ofCells, hd] at hall
    exact List.append_cancel_left (List.append_cancel_left hall)
  refine ⟨d, e, masks, comment, by rw [hd, hfirst], by rw [he, hlast], hmasks, fun X hX => ?_⟩
  obtain ⟨hcomment, part, hpart, -, hsplit⟩ := hreading X hX
  exact ⟨hcomment, part, hpart, hsplit⟩

theorem isSound_of_append (h : r.IsRegular) {line : Text} {d e : Reading} {part : List Cell}
    (hreading : r.reading line = d.append ((Reading.ofCells part).append e)) (hne : part ≠ []) :
    (∀ p ∈ d.pieces, p.IsSound) ∧ (∀ c ∈ d.tail, c.IsGap) ∧ ∀ p ∈ e.pieces, p.IsSound := by
  have hpieces := isSound_of_mem h line
  obtain ⟨c, part, rfl⟩ := List.exists_cons_of_ne_nil hne
  rw [hreading, Reading.append_ofCells_append] at hpieces
  simp only [List.forall_mem_append, List.forall_mem_cons] at hpieces
  obtain ⟨hd, hc, -, he⟩ := hpieces
  exact ⟨hd, fun c hmem => (hc.gap c hmem).1, he⟩

/-- The new line is the same frame for every interior, and so is what is reported. -/
theorem exists_normalize_fill (h : r.IsRegular) (hI : Swaps r.style f I I) :
    ∃ (g : LiteralFrame) (operators keywords : List Text), g.Respaces f ∧
      ∀ X, Swaps r.style f I X → r.normalize (f.fill X) = ⟨g.fill X, operators, keywords⟩ := by
  obtain ⟨d, e, masks, comment, hd, he, hmasks, hparts⟩ := exists_reading_fill h hI
  obtain ⟨-, own, hown, hsplit⟩ := hparts I hI
  obtain ⟨hsound, hgap, hsounds⟩ := isSound_of_append h hsplit (hown.ne_nil hmasks)
  let gap := if endsSetOff false d.pieces then [Cell.space] else d.tail
  have hgaps : Text.solid (codes gap) = [] := by
    refine Cell.solid_codes_of_isGap ?_
    unfold gap
    split_ifs
    · exact List.forall_mem_singleton.mpr Cell.isGap_space.1
    · exact hgap
  let g : LiteralFrame :=
    { f with before := codes (join (spread false d.pieces)) ++ codes gap
             after := codes e.spaced ++ comment }
  have hrespaces : g.Respaces f := by
    refine ⟨rfl, rfl, ?_, ?_⟩
    · rw [← hd, Reading.cells, Cell.codes_append, Text.solid_append, Text.solid_append, hgaps,
        Cell.solid_codes_of_isGap hgap, solid_spread hsound]
    · rw [← he, Text.solid_append, Text.solid_append, Reading.solid_spaced hsounds]
  refine ⟨g, d.tightOperators ++ e.tightOperators, d.calls ++ e.calls, hrespaces, fun X hX => ?_⟩
  obtain ⟨hcomment, part, hpart, hreading⟩ := hparts X hX
  have hline : codes (r.reading (f.fill X)).spaced ++ comment = g.fill X := by
    have hfill : g.fill X = codes (join (spread false d.pieces)) ++ codes gap ++
        (f.literal X ++ (codes e.spaced ++ comment)) := rfl
    rw [hreading, Reading.spaced_append_ofCells (hpart.ne_nil hmasks) hpart.keyword, hfill,
      ← hpart.codes_eq]
    simp only [gap, Cell.codes_append, List.append_assoc]
  rw [normalize_eq h, hcomment, hline, hreading, Reading.tightOperators_append,
    Reading.tightOperators_append, Reading.tightOperators_ofCells, Reading.calls_append,
    Reading.calls_append, Reading.calls_ofCells hpart.keyword]
  rfl

end OperatorSpacing

namespace CommaSpacing

variable {r : CommaSpacing} {f : LiteralFrame} {I : Text}

theorem exists_normalize_fill (hI : Swaps r.style f I I) :
    ∃ g : LiteralFrame, g.Respaces f ∧
      ∀ X, Swaps r.style f I X → r.normalize (f.fill X) = g.fill X := by
  obtain ⟨first, masks, last, comment, hfirst, hlast, hmasks, hcells⟩ :=
    LiteralFrame.exists_codeCells r.generics (fun _ _ => none) hI
  let front := spaced none [⟨f.quote, f.quote, true, none⟩] first
  let back := spaced (masks.getLast?.or (lastMasked none first)) [] last
  let g : LiteralFrame := { f with before := codes front, after := codes back ++ comment }
  have hrespaces : g.Respaces f := by
    refine ⟨rfl, rfl, ?_, ?_⟩
    · rw [← hfirst]
      exact solid_codes_spaced none _ first
    · rw [← hlast, Text.solid_append, Text.solid_append, solid_codes_spaced]
  refine ⟨g, hrespaces, fun X hX => ?_⟩
  obtain ⟨hcomment, part, hpart, hcode⟩ := hcells X hX
  have hkept : ∀ previous, spaced previous last part = part := fun _ =>
    spaced_of_calm fun c hc _ => hpart.isProtected c hc
  have hfront : spaced none (part ++ last) first = front := by
    obtain ⟨c, others, rfl, hc⟩ := hpart.exists_cons hmasks
    exact spaced_of_head (congrArg some hc)
  have hbehind : lastMasked (lastMasked none first) part =
      masks.getLast?.or (lastMasked none first) := by
    rw [lastMasked, ← List.getLast?_map, hpart.masked_eq]
  have hspaced : spaced none [] (r.codeCells (f.fill X)) = front ++ (part ++ back) := by
    rw [codeCells, hcode, spaced_append, spaced_append, List.append_nil, List.append_nil, hkept,
      hbehind, hfront]
  rw [normalize_eq, hspaced, hcomment, Cell.codes_append, Cell.codes_append, hpart.codes_eq,
    List.append_assoc, List.append_assoc]
  rfl

end CommaSpacing

end LineLint
