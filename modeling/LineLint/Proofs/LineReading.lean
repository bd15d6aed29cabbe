import LineLint.Proofs.RespacedLines
import LineLint.Proofs.SpacedLiterals

/-!
# The reading of a line

The new line is the reading of the old one with its new gaps. What the pieces of a line are and what
stands beside them follows from their places, and the code of the new line is the code of a line
again: it has the same literals and the same comment.
-/

namespace LineLint

open Cell (codes)

namespace OperatorSpacing

section Tables

/-- What else the tables of a language hold and do not hold. -/
structure IsRegular (r : OperatorSpacing) : Prop extends IsPlain r where
  operators : AreOperators r.table.byLength
  /-- Operators with a colon, which may stand in a name before angle brackets, are never spaced. -/
  colons : r.generics = true →
    ∀ token ∈ r.table.byLength, ':' ∈ token → r.table.verbatim.contains token = true
  /-- Where brackets count, there are no generic spans. -/
  arguments : r.keywordArguments = true → r.generics = false
  keywordChars : ∀ keyword ∈ r.table.controlKeywords, ∀ c ∈ keyword, isWordChar c = true
  solid : r.style.IsSolid
  quoteChars : ∀ quote ∈ r.style.quotes, quote ∉ operatorChars ∧ quote ∉ "([\x7b)]\x7d".toList

def hasRegularTables (r : OperatorSpacing) : Bool :=
  let tokens := r.table.binary ++ r.table.verbatim
  r.hasPlainTables &&
    tokens.all (fun token => !token.isEmpty && token.all operatorChars.contains) &&
    (!r.generics ||
      tokens.all fun token => !token.contains ':' || r.table.verbatim.contains token) &&
    (!r.keywordArguments || !r.generics) &&
    r.table.controlKeywords.all (fun keyword => keyword.all isWordChar) &&
    r.style.lineComment.all (fun mark => !mark.isEmpty && mark.all fun c => !isSpaceOrTab c) &&
    r.style.quotes.all fun quote =>
      !operatorChars.contains quote && !"([\x7b)]\x7d".toList.contains quote

theorem isRegular_of_hasRegularTables {r : OperatorSpacing} (h : r.hasRegularTables = true) :
    r.IsRegular := by
  simp only [hasRegularTables, Bool.and_eq_true] at h
  obtain ⟨⟨⟨⟨⟨⟨hplain, hoperators⟩, hcolons⟩, harguments⟩, hkeywords⟩, hmark⟩, hquotes⟩ := h
  have hplain := isPlain_of_hasPlainTables hplain
  simp only [List.all_eq_true, Bool.and_eq_true, Bool.not_eq_true', List.isEmpty_eq_false_iff,
    List.contains_iff_mem] at hoperators hkeywords hquotes
  refine ⟨hplain, fun token htoken => hoperators token (mem_byLength.mp htoken),
    fun hgenerics token htoken hcolon => ?_, fun hkeyword => ?_, hkeywords, ⟨fun quote hquote => ?_,
      fun mark hmem => ?_⟩, fun quote hquote => ?_⟩
  · simp only [hgenerics, Bool.not_true, Bool.false_or, List.all_eq_true] at hcolons
    have hcases := hcolons token (mem_byLength.mp htoken)
    simpa [hcolon] using hcases
  · simpa [hkeyword] using harguments
  · exact isSpaceOrTab_of_not_isBlank (hplain.quotes quote hquote)
  · rw [Option.mem_def.mp hmem] at hmark
    simpa using hmark
  · simpa using hquotes quote hquote

theorem isRegular_of_mem_builtin : ∀ r ∈ builtin, r.IsRegular := by
  have htables : builtin.all hasRegularTables = true := by decide +kernel
  exact fun r hr => isRegular_of_hasRegularTables (List.all_eq_true.mp htables r hr)

end Tables

def reading (r : OperatorSpacing) (line : Text) : Reading :=
  r.read r.table.byLength [] 0 (r.codeCells line)

variable {r : OperatorSpacing} {line : Text}

theorem isSpaceable_codeCells (h : r.IsPlain) (line : Text) :
    IsSpaceable r.table.byLength (r.codeCells line) :=
  isSpaceable_ofCode h fun _ hi => isCall_of_lookup h hi

theorem normalize_eq (h : r.IsRegular) (line : Text) :
    r.normalize line =
      ⟨codes (r.reading line).spaced ++ (r.style.splitComment line).2,
        (r.reading line).tightOperators, (r.reading line).calls⟩ := by
  have hspaceable : IsSpaceable r.table.byLength ([] ++ r.codeCells line) :=
    isSpaceable_codeCells h.toIsPlain line
  have hlays : Lays {} (r.reading line) (r.rebuild r.table.byLength [] 0 {} (r.codeCells line)) :=
    lays_rebuild h.operators hspaceable rfl
  have htext : (r.rebuild r.table.byLength [] 0 {} (r.codeCells line)).text =
      codes (r.reading line).spaced := by
    have hmasked : ∀ c ∈ r.codeCells line, c.IsGap → c.masked = c.code := fun c hc hgap =>
      (isSpaceable_codeCells h.toIsPlain line).masked_eq c hc hgap.notProtected
    have hstart : (r.reading line).startsSetOff = false := startsSetOff_read rfl hmasked
    have hlaid := hlays.text_eq
    rwa [hstart] at hlaid
  exact congr (congr (congrArg Normalized.mk (congrArg (· ++ (r.style.splitComment line).2) htext))
    hlays.operators_eq) hlays.keywords_eq

theorem reads_reading (h : r.IsRegular) (line : Text) :
    (r.reading line).Reads r r.table.byLength [] (r.codeCells line) := by
  have hspaceable : IsSpaceable r.table.byLength ([] ++ r.codeCells line) :=
    isSpaceable_codeCells h.toIsPlain line
  exact reads_read h.operators hspaceable rfl rfl

section Cells

variable {before after : List Cell} {c x : Cell}

theorem masked_codeCells (r : OperatorSpacing) (line : Text) :
    (r.codeCells line).map (·.masked) = r.style.maskLiterals (r.style.splitComment line).1 :=
  Cell.map_masked_ofCode

/-- The cells of a line are its code, whatever is protected in it besides the literals. -/
theorem isCode_ofCode (style : LiteralStyle) (generics : Bool) (keywordAt : Nat → Option Text)
    (line : Text) :
    IsCode style (Cell.ofCode style generics keywordAt (style.splitComment line).1)
      (style.splitComment line).2 := by
  refine ⟨?_, ?_, ?_⟩
  · rw [Cell.codes_ofCode, style.splitComment_append line]
  · rw [Cell.codes_ofCode, Cell.map_masked_ofCode]
  · rw [Cell.codes_ofCode]
    intro s hs i c hstart hstop hc
    exact (Cell.isAt hc).isProtected_iff.mpr ⟨s, List.mem_append_left _ hs, hstart, hstop⟩

theorem isCode_codeCells (r : OperatorSpacing) (line : Text) :
    IsCode r.style (r.codeCells line) (r.style.splitComment line).2 :=
  isCode_ofCode ..

theorem isAt_of_split (hcells : r.codeCells line = before ++ c :: after) :
    Cell.IsAt r.style r.generics
      (fun i => ((((keywordCall r.table.controlKeywords).findAll
        (r.style.maskLiterals (r.style.splitComment line).1)).map
          fun m => (m.stop - 1, m.text "keyword")).lookup i))
      (r.style.splitComment line).1 before.length c :=
  Cell.isAt_of_split hcells

theorem exists_keyword_of_isSome (hcells : r.codeCells line = before ++ c :: after)
    (hsome : c.keyword.isSome = true) :
    c.isProtected = false ∧ c.masked = '(' ∧
      ∃ keyword ∈ r.table.controlKeywords, keyword <:+ before.map (·.masked) := by
  have hat := isAt_of_split hcells
  rw [hat.keyword_eq] at hsome
  split_ifs at hsome with hprotected
  · cases hsome
  · obtain ⟨text, htext⟩ := Option.isSome_iff_exists.mp hsome
    obtain ⟨front, back, hcalls, -⟩ := List.lookup_eq_some_iff.mp htext
    have hmem : (before.length, text) ∈ ((keywordCall r.table.controlKeywords).findAll
        (r.style.maskLiterals (r.style.splitComment line).1)).map
          fun m => (m.stop - 1, m.text "keyword") := by
      rw [hcalls]
      simp
    obtain ⟨m, hm, hpair⟩ := List.mem_map.mp hmem
    obtain ⟨first, rest, keyword, hkeyword, hmasked, hstop⟩ := exists_keyword hm
    have hlength : before.length = (first ++ keyword).length := by
      rw [← (Prod.mk.inj hpair).1, hstop, Nat.add_sub_cancel, List.length_append]
    rw [← masked_codeCells, hcells, List.map_append, List.map_cons, ← List.append_assoc,
      List.append_assoc, List.singleton_append] at hmasked
    obtain ⟨hbefore, hrest⟩ := List.append_inj hmasked (by rw [List.length_map, hlength])
    exact ⟨by simpa using hprotected, (List.cons.inj hrest).1, keyword, hkeyword, first,
      hbefore.symm⟩

theorem masked_eq_of_start (hcells : r.codeCells line = before ++ x :: c :: after)
    (hx : x.isProtected = false) : c.masked = c.code := by
  have hx' := isAt_of_split hcells
  rw [← List.singleton_append, ← List.append_assoc] at hcells
  have hc := isAt_of_split hcells
  rw [List.length_append, List.length_singleton] at hc
  exact hx'.masked_eq_code_of_previous hc hx

theorem adjoins_of_split (h : r.IsPlain) (hcells : r.codeCells line = before ++ x :: c :: after) :
    Adjoins r.table.byLength x c := by
  have hchain := (isSpaceable_codeCells h line).adjoins
  rw [hcells] at hchain
  exact (List.isChain_cons_cons.mp hchain.right_of_append).1

theorem solid_behind (h : r.IsPlain) (hcells : r.codeCells line = before ++ x :: c :: after)
    (hx : x.isProtected = false) (hc : ¬c.IsGap) : isSpaceOrTab c.code = false := by
  have hadjoins := adjoins_of_split h hcells
  by_contra hblank
  rw [Bool.not_eq_false] at hblank
  cases hprotected : c.isProtected with
  | false => exact hc ⟨hprotected, hblank⟩
  | true =>
      have hsolid := (hadjoins.of_start hx hprotected).1
      rw [masked_eq_of_start hcells hx, hblank] at hsolid
      cases hsolid

theorem solid_before (h : r.IsPlain) (hcells : r.codeCells line = before ++ x :: c :: after)
    (hc : c.isProtected = false) (hx : ¬x.IsGap) : isSpaceOrTab x.code = false := by
  have hadjoins := adjoins_of_split h hcells
  by_contra hblank
  rw [Bool.not_eq_false] at hblank
  cases hprotected : x.isProtected with
  | false => exact hx ⟨hprotected, hblank⟩
  | true =>
      rw [hadjoins.of_blank hprotected hblank] at hc
      cases hc

end Cells

section Pieces

variable {front back : List Piece} {p : Piece}

theorem codeCells_eq_of_split (h : r.IsRegular)
    (hsplit : (r.reading line).pieces = front ++ p :: back) :
    r.codeCells line =
      join front ++ p.gap ++ (p.cells ++ (join back ++ (r.reading line).tail)) := by
  rw [← (reads_reading h line).cells_eq, Reading.cells, hsplit]
  simp

theorem isPlaced_of_split (h : r.IsRegular)
    (hsplit : (r.reading line).pieces = front ++ p :: back) :
    p.IsPlaced r r.table.byLength (join front ++ p.gap) (join back ++ (r.reading line).tail) := by
  have hplaced := (reads_reading h line).arePlaced
  rw [hsplit] at hplaced
  exact hplaced.isPlaced

theorem IsToken.masked_mem {tokens : List Text} {token : Text} {part : List Cell}
    (hoperators : AreOperators tokens) (hmem : token ∈ tokens) (htoken : IsToken token part) :
    ∀ c ∈ part, c.masked ∈ operatorChars := by
  intro c hc
  apply (hoperators token hmem).2
  rw [← htoken.masked_eq]
  exact List.mem_map_of_mem hc

theorem Piece.IsOperator.mem {tokens : List Text} {before after : List Cell} {token : Text}
    (h : p.IsOperator r tokens before after token) : token ∈ tokens :=
  List.mem_of_find?_eq_some h.operatorAt

theorem isSound_of_split (h : r.IsRegular)
    (hsplit : (r.reading line).pieces = front ++ p :: back) : p.IsSound := by
  have hcells := codeCells_eq_of_split h hsplit
  have hplaced := isPlaced_of_split h hsplit
  have hmasked : ∀ c ∈ r.codeCells line, c.isProtected = false → c.masked = c.code :=
    (isSpaceable_codeCells h.toIsPlain line).masked_eq
  have hkeyword : ∀ c ∈ p.cells.head?, c.keyword.isSome = true →
      c.isProtected = false ∧ c.masked = '(' := by
    intro c hc hsome
    obtain ⟨others, hothers⟩ := List.head?_eq_some_iff.mp hc
    rw [hothers] at hcells
    obtain ⟨hnot, hparen, -⟩ := exists_keyword_of_isSome hcells hsome
    exact ⟨hnot, hparen⟩
  refine ⟨fun c hc => ⟨hplaced.gap c hc, ?_⟩, ?_, fun hsome => ?_⟩
  · exact hmasked c (by rw [hcells]; simp [hc]) (hplaced.gap c hc).notProtected
  · rcases hplaced.shape with hsingle | ⟨token, htoken⟩
    · obtain ⟨c, hc, hnot, -⟩ := hsingle.exists_cell
      exact Or.inl ⟨c, hc, hnot, hsingle.notSetOff⟩
    · refine Or.inr ⟨htoken.isToken.ne_nil, fun c hc => ?_⟩
      have hmark := htoken.isToken.isMark c hc
      refine ⟨hmark, ?_, htoken.isToken.masked_mem h.operators htoken.mem c hc⟩
      exact hmasked c (by rw [hcells]; simp [hc]) hmark.notProtected
  · obtain ⟨c, hc, hcall⟩ : ∃ c ∈ p.cells.head?, c.keyword.isSome = true := by
      rw [Piece.keyword] at hsome
      cases hhead : p.cells.head? with
      | none => simp [hhead] at hsome
      | some c => exact ⟨c, rfl, by simpa [hhead] using hsome⟩
    obtain ⟨hnot, hparen⟩ := hkeyword c hc hcall
    obtain ⟨others, hothers⟩ := List.head?_eq_some_iff.mp hc
    rcases hplaced.shape with hsingle | ⟨token, htoken⟩
    · obtain ⟨d, hd, -⟩ := hsingle.exists_cell
      obtain ⟨rfl, -⟩ := List.cons.inj (hd.symm.trans hothers)
      exact ⟨d, hd, hnot, hparen⟩
    · have hchar := htoken.isToken.masked_mem h.operators htoken.mem c
        (by rw [hothers]; exact List.mem_cons_self)
      rw [hparen] at hchar
      exact absurd hchar (by decide)

theorem isSound_of_mem (h : r.IsRegular) (line : Text) :
    ∀ p ∈ (r.reading line).pieces, p.IsSound := by
  intro p hp
  obtain ⟨front, back, hsplit⟩ := List.append_of_mem hp
  exact isSound_of_split h hsplit

theorem gap_tail (h : r.IsRegular) (line : Text) :
    ∀ c ∈ (r.reading line).tail, c.IsGap ∧ c.masked = c.code := by
  intro c hc
  have hgap := (reads_reading h line).arePlaced.tail c hc
  refine ⟨hgap, (isSpaceable_codeCells h.toIsPlain line).masked_eq c ?_ hgap.notProtected⟩
  rw [← (reads_reading h line).cells_eq]
  exact List.mem_append_right _ hc

theorem isGap_tail (h : r.IsRegular) : ∀ c ∈ (r.reading line).tail, c.IsGap :=
  fun c hc => (gap_tail h _ c hc).1

/-- The spaced line is code: its literals and its comment are where they were. -/
theorem isCode_spaced (h : r.IsRegular) (line : Text) :
    IsCode r.style (r.reading line).spaced (r.style.splitComment line).2 := by
  have hcode := isCode_codeCells r line
  rw [← (reads_reading h line).cells_eq] at hcode
  exact isCode_spread h.solid (fun quote hquote => (h.quoteChars quote hquote).1)
    (isSound_of_mem h _) (isGap_tail h) hcode

end Pieces

section Neighbours

variable {front back : List Piece} {p : Piece}

theorem exists_operator_of_isSetOff (h : r.IsRegular)
    (hsplit : (r.reading line).pieces = front ++ p :: back) (hset : p.isSetOff = true) :
    ∃ token, p.IsOperator r r.table.byLength (join front ++ p.gap)
      (join back ++ (r.reading line).tail) token := by
  rcases (isPlaced_of_split h hsplit).shape with hsingle | hoperator
  · rw [hsingle.notSetOff] at hset
    cases hset
  · exact hoperator

theorem not_expectsOperand_of_isSetOff (h : r.IsRegular)
    (hsplit : (r.reading line).pieces = front ++ p :: back) (hset : p.isSetOff = true) :
    expectsOperand (backward (join front)) = false := by
  obtain ⟨token, htoken⟩ := exists_operator_of_isSetOff h hsplit hset
  have hverdict := htoken.isSetOff_eq
  rw [hset, setsOff] at hverdict
  have hkept : r.keeps token (backward (join front ++ p.gap)) (depthOf (join front ++ p.gap))
      (join back ++ (r.reading line).tail) = false := by
    by_contra hkeeps
    rw [Bool.not_eq_false] at hkeeps
    change true = !(r.keeps token (backward (join front ++ p.gap)) _ _ || _) at hverdict
    rw [hkeeps] at hverdict
    cases hverdict
  simp only [keeps, Bool.or_eq_false_iff] at hkept
  have hoperand := hkept.1.2
  rwa [expectsOperand_append_gap (isSpaceOrTab_masked (isSound_of_split h hsplit).gap)] at hoperand

/-- The parenthesis of a call has no gap, and stands behind a word. -/
theorem gap_of_keyword (h : r.IsRegular)
    (hsplit : (r.reading line).pieces = front ++ p :: back) (hsome : p.keyword.isSome = true) :
    p.gap = [] ∧ ∃ c cells, backward (join front) = c :: cells ∧ isWordChar c = true := by
  have hcells := codeCells_eq_of_split h hsplit
  have hsound := isSound_of_split h hsplit
  obtain ⟨c, hc, -⟩ := hsound.keyword hsome
  have hcall : c.keyword.isSome = true := by simpa [Piece.keyword, hc] using hsome
  rw [hc, List.singleton_append] at hcells
  obtain ⟨-, -, keyword, hmem, first, hends⟩ := exists_keyword_of_isSome hcells hcall
  obtain ⟨chars, last, rfl⟩ :=
    (List.eq_nil_or_concat keyword).resolve_left (h.keywords keyword hmem).1
  have hword : isWordChar last = true := h.keywordChars _ hmem last (by simp)
  have hback : backward (join front ++ p.gap) = last :: (first ++ chars).reverse := by
    rw [backward, ← hends]
    simp
  have hgap : p.gap = [] := by
    by_contra hne
    obtain ⟨cells, d, hconcat⟩ := (List.eq_nil_or_concat p.gap).resolve_left hne
    have hblank := isSpaceOrTab_masked hsound.gap d (by simp [hconcat])
    have hlast : d.masked = last := by
      rw [hconcat] at hback
      simp only [backward, List.concat_eq_append, List.map_append, List.map_cons, List.map_nil,
        List.reverse_append, List.reverse_cons, List.reverse_nil, List.nil_append,
        List.cons_append, List.cons.injEq] at hback
      exact hback.1
    rw [hlast] at hblank
    rw [isWordClass_isWordChar.blank last hblank] at hword
    cases hword
  rw [hgap, List.append_nil] at hback
  exact ⟨hgap, last, _, hback, hword⟩

/-- What stands behind an operator character is no operator that is set off, and no parenthesis of a
call. -/
theorem kept_of_backward (h : r.IsRegular)
    (hsplit : (r.reading line).pieces = front ++ p :: back) {x : Char} {before : Text}
    (hback : backward (join front) = x :: before) (hx : x ∈ operatorChars) :
    p.isSetOff = false ∧ p.keyword = none := by
  constructor
  · by_contra hset
    have hoperand := not_expectsOperand_of_isSetOff h hsplit (by simpa using hset)
    rw [hback, expectsOperand_operator_cons hx] at hoperand
    cases hoperand
  · by_contra hsome
    obtain ⟨-, c, cells, hword, hwordChar⟩ :=
      gap_of_keyword h hsplit (Option.isSome_iff_ne_none.mpr hsome)
    obtain ⟨rfl, -⟩ := List.cons.inj (hback.symm.trans hword)
    rw [isWordClass_isWordChar.operator x hx] at hwordChar
    cases hwordChar

/-- The piece behind one that is not protected starts with no blank. -/
theorem exists_solid_behind (h : r.IsRegular) {q : Piece}
    (hsplit : (r.reading line).pieces = front ++ p :: q :: back)
    (hplain : ∀ c ∈ p.cells, c.isProtected = false) :
    ∃ c others, q.cells = c :: others ∧ isSpaceOrTab c.code = false := by
  have hcells := codeCells_eq_of_split h hsplit
  have hq : q.IsSound := isSound_of_mem h line q (by rw [hsplit]; simp)
  have hp := isSound_of_split h hsplit
  obtain ⟨c, others, hothers⟩ := List.exists_cons_of_ne_nil hq.cells_ne_nil
  refine ⟨c, others, hothers, ?_⟩
  -- neither the piece nor the gap behind it is protected
  obtain ⟨before, x, hbefore, hx⟩ : ∃ before x, p.cells ++ q.gap = before ++ [x] ∧
      x.isProtected = false := by
    obtain ⟨before, x, hconcat⟩ :=
      (List.eq_nil_or_concat (p.cells ++ q.gap)).resolve_left (by simp [hp.cells_ne_nil])
    rw [List.concat_eq_append] at hconcat
    refine ⟨before, x, hconcat, ?_⟩
    rcases List.mem_append.mp (hconcat ▸ List.mem_concat_self : x ∈ p.cells ++ q.gap) with hx | hx
    · exact hplain x hx
    · exact (hq.gap x hx).1.notProtected
  have hplace : r.codeCells line = (join front ++ p.gap ++ before) ++
      x :: c :: (others ++ (join back ++ (r.reading line).tail)) := by
    rw [hcells, join_cons, hothers, List.append_assoc q.gap, List.append_assoc q.gap,
      ← List.append_assoc p.cells, hbefore]
    simp
  exact solid_behind h.toIsPlain hplace hx (hq.not_isGap c (by simp [hothers]))

/-- A piece behind an operator that is set off is kept, and starts with no blank. -/
theorem kept_of_endsSetOff (h : r.IsRegular)
    (hsplit : (r.reading line).pieces = front ++ p :: back)
    (hends : endsSetOff false front = true) :
    p.isSetOff = false ∧ p.keyword = none ∧ ∀ c ∈ p.cells.head?, isSpaceOrTab c.code = false := by
  have hfront : ∀ q ∈ front, q.IsSound := fun q hq =>
    isSound_of_mem h _ q (by rw [hsplit]; exact List.mem_append_left _ hq)
  obtain ⟨cells, x, hjoin, hmark, hchar⟩ := exists_last_of_endsSetOff hfront hends
  have hback : backward (join front) = x.masked :: backward cells := by
    rw [hjoin, backward_append]
    rfl
  obtain ⟨hset, hkeyword⟩ := kept_of_backward h hsplit hback hchar
  refine ⟨hset, hkeyword, fun c hc => ?_⟩
  obtain ⟨front, u, rfl, hu⟩ := exists_concat_of_endsSetOff hends
  rw [List.append_assoc, List.singleton_append] at hsplit
  have hplain : ∀ d ∈ u.cells, d.isProtected = false := fun d hd =>
    ((hfront u (by simp)).isMark_of_isSetOff hu d hd).1.notProtected
  obtain ⟨d, others, hothers, hd⟩ := exists_solid_behind h hsplit hplain
  rw [hothers] at hc
  obtain rfl : d = c := Option.some.inj hc
  exact hd

/-- A piece before one that is not protected ends with no blank. -/
theorem exists_solid_before (h : r.IsRegular)
    (hsplit : (r.reading line).pieces = front ++ p :: back)
    (hplain : ∀ c ∈ p.cells, c.isProtected = false) (hne : front ≠ []) :
    ∃ cells x, join front = cells ++ [x] ∧ isSpaceOrTab x.code = false := by
  have hcells := codeCells_eq_of_split h hsplit
  have hsound := isSound_of_split h hsplit
  obtain ⟨front, q, rfl⟩ := (List.eq_nil_or_concat front).resolve_left hne
  rw [List.concat_eq_append] at hsplit hcells ⊢
  have hq := isSound_of_mem h _ q (by rw [hsplit]; simp)
  obtain ⟨others, x, hconcat⟩ := (List.eq_nil_or_concat q.cells).resolve_left hq.cells_ne_nil
  refine ⟨join front ++ q.gap ++ others, x, by simp [hconcat], ?_⟩
  -- neither the gap of the piece nor the piece itself is protected
  obtain ⟨y, rest, hrest, hy⟩ : ∃ y rest, p.gap ++ (p.cells ++ (join back ++
      (r.reading line).tail)) = y :: rest ∧ y.isProtected = false := by
    cases hgap : p.gap with
    | cons y gap =>
        exact ⟨y, _, rfl, (hsound.gap y (by rw [hgap]; exact List.mem_cons_self)).1.notProtected⟩
    | nil =>
        obtain ⟨y, rest, hcons⟩ := List.exists_cons_of_ne_nil hsound.cells_ne_nil
        refine ⟨y, rest ++ (join back ++ (r.reading line).tail), by rw [hcons]; rfl, ?_⟩
        exact hplain y (by rw [hcons]; exact List.mem_cons_self)
  have hplace : r.codeCells line = (join front ++ q.gap ++ others) ++ x :: y :: rest := by
    rw [hcells, List.append_assoc (join _), hrest]
    simp [hconcat]
  exact solid_before h.toIsPlain hplace hy (hq.not_isGap x (by simp [hconcat]))

theorem exists_solid_of_isSetOff (h : r.IsRegular)
    (hsplit : (r.reading line).pieces = front ++ p :: back) (hset : p.isSetOff = true) :
    ∃ cells x, join front = cells ++ [x] ∧ isSpaceOrTab x.code = false := by
  refine exists_solid_before h hsplit (fun c hc => ?_) fun hnil => ?_
  · exact ((isSound_of_split h hsplit).isMark_of_isSetOff hset c hc).1.notProtected
  · have hoperand := not_expectsOperand_of_isSetOff h hsplit hset
    rw [hnil] at hoperand
    cases hoperand

end Neighbours

end OperatorSpacing

end LineLint
