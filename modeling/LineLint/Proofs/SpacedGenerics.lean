import LineLint.Proofs.GenericSpans
import LineLint.Proofs.LineReading

/-!
# Generic spans on the spaced line

No gap within a generic span is changed, and no name comes to stand before it. What such a span
protects on the line itself is therefore protected on the spaced line too.
-/

namespace LineLint

open Cell (codes)

namespace LiteralStyle

variable {style : LiteralStyle} {t : Text} {s : Span} {i : Nat} {m : Char}

theorem eq_maskChar_or_quote (hs : s ∈ style.literals t) (hstart : s.start ≤ i) (hstop : i < s.stop)
    (hm : (style.maskLiterals t)[i]? = some m) : m = maskChar ∨ m ∈ style.quotes := by
  have hquoted := isQuoted_of_mem_literals hs
  have hlt : i < t.length := Nat.lt_of_lt_of_le hstop hquoted.stop_le
  have hc : t[i]? = some t[i] := List.getElem?_eq_getElem hlt
  by_cases hhides : style.hides t s i = true
  · left
    rw [getElem?_maskLiterals, hc, Option.map_some, Option.some.injEq,
      if_pos (List.any_eq_true.mpr ⟨s, hs, hhides⟩)] at hm
    exact hm.symm
  · rcases eq_or_isInside hc hm with hsame | ⟨hmask, -⟩
    · right
      rw [hsame]
      obtain ⟨quote, hquote, hfirst⟩ := hquoted.first
      rcases Nat.eq_or_lt_of_le hstart with heq | hinside
      · rw [heq, hc] at hfirst
        exact Option.some.inj hfirst ▸ hquote
      · simp only [hides, hinside, decide_true, Bool.true_and, Bool.or_eq_true, Bool.and_eq_true,
          decide_eq_true_eq, beq_iff_eq, Bool.not_eq_true', not_or, not_and] at hhides
        have hlast : i + 1 = s.stop := by omega
        by_cases hend : s.stop = t.length
        · -- a literal at the end of the line that shows its last character ends with its delimiter
          have hclosed : style.isClosed t s = true := by simpa using hhides.2 ⟨hstop, hend⟩
          have hdrop : t.drop s.start = quote :: t.drop (s.start + 1) := by
            obtain ⟨hbound, hget⟩ := List.getElem?_eq_some_iff.mp hfirst
            rw [List.drop_eq_getElem_cons hbound, hget]
          unfold isClosed at hclosed
          rw [hdrop] at hclosed
          simp only [Bool.and_eq_true] at hclosed
          obtain ⟨opened, hdelimiter, -⟩ := style.delimiterAt_spec quote (t.drop (s.start + 1))
          obtain ⟨front, hfront⟩ := List.isSuffixOf_iff_suffix.mp hclosed.1.2
          rw [hdelimiter, List.replicate_succ', ← List.append_assoc, hend,
            List.take_length] at hfront
          have hi : i = (front ++ List.replicate opened quote).length := by
            have hlength := congrArg List.length hfront
            rw [List.length_append, List.length_singleton] at hlength
            omega
          have hquoteAt : t[i]? = some quote := by
            rw [← hfront, hi]
            simp
          rw [hquoteAt] at hc
          exact Option.some.inj hc ▸ hquote
        · obtain ⟨closing, hclosing, hget⟩ := hquoted.last (by have := hquoted.stop_le; omega)
          rw [← hlast, Nat.add_sub_cancel, hc] at hget
          exact Option.some.inj hget ▸ hclosing
    · exact Or.inl hmask

end LiteralStyle

namespace OperatorSpacing

open ProtectedSpan

variable {r : OperatorSpacing} {line : Text} {before after : List Cell} {x : Cell}

def maskOf (cells : List Cell) : Text := cells.map (·.masked)

@[simp] theorem maskOf_append (cells more : List Cell) :
    maskOf (cells ++ more) = maskOf cells ++ maskOf more :=
  List.map_append

theorem maskOf_eq_append_iff {cells : List Cell} {s t : Text} :
    maskOf cells = s ++ t ↔
      ∃ front back, cells = front ++ back ∧ maskOf front = s ∧ maskOf back = t :=
  List.map_eq_append_iff

theorem takeWhile_backward_eq_nil_iff {q : Char → Bool} {cells : List Cell} :
    (backward cells).takeWhile q = [] ↔ (maskOf cells).getLast?.any q = false := by
  rcases List.eq_nil_or_concat cells with rfl | ⟨front, c, rfl⟩
  · exact ⟨fun _ => rfl, fun _ => rfl⟩
  · have hback : backward (front.concat c) = c.masked :: backward front := by simp [backward]
    have hlast : (maskOf (front.concat c)).getLast? = some c.masked := by simp [maskOf]
    rw [hback, hlast]
    cases hc : q c.masked <;> simp [hc]

theorem exists_run (q : Char → Bool) (cells : List Cell) :
    ∃ first, maskOf cells = first ++ ((backward cells).takeWhile q).reverse ∧
      first.getLast?.any q = false := by
  refine ⟨((backward cells).dropWhile q).reverse, ?_, ?_⟩
  · rw [← List.reverse_append, List.takeWhile_append_dropWhile, backward, List.reverse_reverse]
    rfl
  · rw [List.getLast?_reverse]
    have hnot := List.head?_dropWhile_not q (backward cells)
    cases hhead : ((backward cells).dropWhile q).head? with
    | none => rfl
    | some c =>
        rw [hhead] at hnot
        simpa using hnot

theorem isWordClass_isNamePart : IsWordClass LiteralStyle.isNamePart := by
  refine ⟨fun c hc => ?_, of_mem_operatorChars (by decide), by decide⟩
  rcases Bool.or_eq_true_iff.mp hc with h | h
  all_goals
    rw [eq_of_beq h]
    rfl

theorem exists_split_of_length {α : Type} {before after front middle back : List α} {x : α}
    (h : before ++ x :: after = front ++ (middle ++ back)) (hfront : front.length ≤ before.length)
    (hmiddle : before.length < (front ++ middle).length) :
    ∃ inner outer, middle = inner ++ x :: outer ∧ before = front ++ inner ∧
      after = outer ++ back := by
  have hwithin : front <+: before ++ x :: after := h ▸ List.prefix_append _ _
  obtain ⟨inner, rfl⟩ :=
    List.prefix_of_prefix_length_le hwithin (List.prefix_append _ _) hfront
  rw [List.append_assoc] at h
  rw [List.length_append, List.length_append, Nat.add_lt_add_iff_left] at hmiddle
  rcases List.append_eq_append_iff.mp (List.append_cancel_left h) with
    ⟨more, rfl, hmore⟩ | ⟨more, rfl, -⟩
  · cases more with
    | nil => simp at hmiddle
    | cons y outer =>
        obtain ⟨rfl, hafter⟩ := List.cons.inj hmore
        exact ⟨inner, outer, rfl, rfl, hafter⟩
  · rw [List.length_append] at hmiddle
    omega

/-- A protected character that no literal shows stands between the angle brackets of a generic
span. -/
theorem exists_generic_of_ofCode {style : LiteralStyle} {generics : Bool}
    {keywordAt : Nat → Option Text} {code : Text}
    (hcells : Cell.ofCode style generics keywordAt code = before ++ x :: after)
    (hx : x.isProtected = true) (hmask : x.masked ≠ maskChar) (hquote : x.masked ∉ style.quotes) :
    generics = true ∧ ∃ first name inner outer last, before = first ++ (name ++ inner) ∧
      after = outer ++ last ∧ (∀ d ∈ inner ++ x :: outer, d.isProtected = true) ∧
      IsGenericAt (maskOf first) (maskOf name) (maskOf (inner ++ x :: outer)) (maskOf last) := by
  have hat := Cell.isAt_of_split hcells
  obtain ⟨s, hs, hstart, hstop⟩ := hat.isProtected_iff.mp hx
  rcases List.mem_append.mp hs with hliteral | hgeneric
  · rcases LiteralStyle.eq_maskChar_or_quote hliteral hstart hstop hat.masked_eq with hsame | hsame
    · exact absurd hsame hmask
    · exact absurd hsame hquote
  · split_ifs at hgeneric with hgenerics
    · refine ⟨hgenerics, ?_⟩
      obtain ⟨m, hm, rfl⟩ := List.mem_map.mp hgeneric
      obtain ⟨first, name, angles, last, hmasked, hmatchStart, hmatchStop, hgenericAt⟩ :=
        exists_isGenericAt hm
      have hpart := anglePart_eq last hgenericAt.isGeneric hmatchStart hmatchStop
      rw [← hmasked] at hpart
      rw [hpart] at hstart hstop hs
      rw [← @Cell.map_masked_ofCode style generics keywordAt code] at hmasked
      obtain ⟨firstCells, others, hsplit, rfl, hothers⟩ := maskOf_eq_append_iff.mp hmasked
      obtain ⟨nameCells, others', rfl, rfl, hothers'⟩ := maskOf_eq_append_iff.mp hothers
      obtain ⟨angleCells, lastCells, rfl, rfl, rfl⟩ := maskOf_eq_append_iff.mp hothers'
      have hprotected : ∀ d ∈ angleCells, d.isProtected = true := by
        intro d hd
        obtain ⟨front, back, rfl⟩ := List.append_of_mem hd
        have hcells' : Cell.ofCode style generics keywordAt code =
            firstCells ++ nameCells ++ front ++ d :: (back ++ lastCells) := by
          rw [hsplit]
          simp
        refine (Cell.isAt_of_split hcells').isProtected_iff.mpr ⟨_, hs, ?_, ?_⟩
        · simp [maskOf]
        · simp only [maskOf, List.length_append, List.length_map, List.length_cons]
          omega
      rw [hcells, ← List.append_assoc] at hsplit
      obtain ⟨inner, outer, rfl, rfl, rfl⟩ := exists_split_of_length hsplit
        (by simpa [maskOf] using hstart) (by simpa [maskOf] using hstop)
      exact ⟨firstCells, nameCells, inner, outer, lastCells, by rw [List.append_assoc], rfl,
        hprotected, hgenericAt⟩
    · cases hgeneric

theorem exists_generic_of_protected (hcells : r.codeCells line = before ++ x :: after)
    (hx : x.isProtected = true) (hmask : x.masked ≠ maskChar) (hquote : x.masked ∉ r.style.quotes) :
    r.generics = true ∧ ∃ first name inner outer last, before = first ++ (name ++ inner) ∧
      after = outer ++ last ∧ (∀ d ∈ inner ++ x :: outer, d.isProtected = true) ∧
      IsGenericAt (maskOf first) (maskOf name) (maskOf (inner ++ x :: outer)) (maskOf last) :=
  exists_generic_of_ofCode hcells hx hmask hquote

theorem ne_paren_of_isGeneric {name angles : Text} {x : Char} (hgeneric : IsGeneric name angles)
    (hx : x ∈ name ∨ x ∈ angles) : x ≠ '(' := by
  rintro rfl
  rcases hx with hname | hangle
  · exact absurd (hgeneric.nameChars _ hname) (by decide)
  · exact absurd (hgeneric.chars _ hangle) (by decide)

theorem notProtected_of_paren (h : r.IsRegular) (hcells : r.codeCells line = before ++ x :: after)
    (hparen : x.masked = '(') : x.isProtected = false := by
  by_contra hprotected
  obtain ⟨-, first, name, inner, outer, last, -, -, -, hgeneric⟩ :=
    exists_generic_of_protected hcells (by simpa using hprotected) (by rw [hparen]; decide)
      (fun hquote => (h.quoteChars _ hquote).2 (by rw [hparen]; decide))
  exact ne_paren_of_isGeneric hgeneric.isGeneric (Or.inr (by simp [maskOf])) hparen

section Region

variable {front back : List Piece} {p : Piece}

/-- Of all that may stand in the name of a generic span, only a colon is part of operators. -/
theorem eq_colon_of_mem_name {name angles : Text} {x : Char} (hgeneric : IsGeneric name angles)
    (hx : x ∈ name) (hoperator : x ∈ operatorChars) : x = ':' := by
  rcases hgeneric.nameChars x hx with hword | hblank | rfl | hcolon
  · rw [isWordClass_isWordChar.operator x hoperator] at hword
    cases hword
  · rw [isBlank_of_mem_operatorChars x hoperator] at hblank
    cases hblank
  · exact absurd hoperator (by decide)
  · exact hcolon

/-- The name and the brackets of a generic span hold no operator that is set off, and no call. -/
theorem kept_of_generic (h : r.IsRegular) (hgenerics : r.generics = true) {u : Piece}
    (hsplit : (r.reading line).pieces = front ++ u :: back) {first name angles last : Text}
    (hgeneric : IsGenericAt first name angles last)
    (hchars : ∀ d ∈ u.cells, d.masked ∈ name ∨ d.isProtected = true ∧ d.masked ∈ angles) :
    u.isSetOff = false ∧ u.keyword = none := by
  have hsound := isSound_of_split h hsplit
  refine ⟨?_, ?_⟩
  · rcases (isPlaced_of_split h hsplit).shape with hsingle | ⟨token, htoken⟩
    · exact hsingle.notSetOff
    · obtain ⟨d, others, hcons⟩ := List.exists_cons_of_ne_nil htoken.isToken.ne_nil
      have hd : d ∈ u.cells := by rw [hcons]; exact List.mem_cons_self
      have hoperator := htoken.isToken.masked_mem h.operators htoken.mem d hd
      have hname : d.masked ∈ name := by
        refine (hchars d hd).resolve_right fun hprotected => ?_
        rw [(htoken.isToken.isMark d hd).notProtected] at hprotected
        cases hprotected.1
      have hverbatim : r.table.verbatim.contains token = true := by
        refine h.colons hgenerics token htoken.mem ?_
        rw [← htoken.isToken.masked_eq, ← eq_colon_of_mem_name hgeneric.isGeneric hname hoperator]
        exact List.mem_map_of_mem hd
      rw [htoken.isSetOff_eq, setsOff, keeps, hverbatim]
      rfl
  · by_contra hsome
    obtain ⟨d, hd, -, hparen⟩ := hsound.keyword (Option.isSome_iff_ne_none.mpr hsome)
    have hmem : d ∈ u.cells := by rw [hd]; exact List.mem_singleton_self d
    exact ne_paren_of_isGeneric hgeneric.isGeneric ((hchars d hmem).imp_right And.right) hparen

variable {first name inner outer last : List Cell}

/-- The name of a generic span starts with a character that is neither blank nor an operator. -/
theorem exists_cons_of_isGeneric {name : List Cell} {angles : Text}
    (h : IsGeneric (maskOf name) angles) : ∃ c others, name = c :: others ∧
      c.masked ∉ operatorChars ∧ isSpaceOrTab c.masked = false := by
  obtain ⟨m, others, hname, hword⟩ := h.head
  obtain ⟨c, rest, rfl, rfl, -⟩ := List.map_eq_cons_iff.mp hname
  refine ⟨c, rest, rfl, fun hoperator => ?_, ?_⟩
  · rw [isWordClass_isWordChar.operator _ hoperator] at hword
    cases hword
  · by_contra hblank
    rw [isWordClass_isWordChar.blank _ (by simpa using hblank)] at hword
    cases hword

/-- Between the start of a generic span and a protected character in it, no gap is changed. -/
theorem exists_calm_pieces (h : r.IsRegular) (hgenerics : r.generics = true)
    (hsplit : (r.reading line).pieces = front ++ p :: back)
    (hbefore : join front ++ p.gap = first ++ (name ++ inner))
    (hinner : ∀ d ∈ inner, d.isProtected = true)
    (hgeneric : IsGenericAt (maskOf first) (maskOf name) (maskOf (inner ++ x :: outer))
      (maskOf last)) :
    ∃ front' q mid, front = front' ++ q :: mid ∧ first = join front' ++ q.gap ∧
      name ++ inner = q.cells ++ (join mid ++ p.gap) ∧
      ∀ u ∈ q :: mid, u.isSetOff = false ∧ u.keyword = none := by
  have hsound := isSound_of_mem h line
  rw [hsplit] at hsound
  obtain ⟨hfront, hrest⟩ := List.forall_mem_append.mp hsound
  obtain ⟨hp, -⟩ := List.forall_mem_cons.mp hrest
  obtain ⟨c, others, rfl, hoperator, hsolid⟩ := exists_cons_of_isGeneric hgeneric.isGeneric
  obtain ⟨front, q, mid, inner', outer', rfl, hcells, rfl, hmid⟩ :=
    exists_piece_of_split hfront (isSpaceOrTab_masked hp.gap) hsolid hbefore
  obtain ⟨rfl, rfl, -⟩ := (hfront q (by simp)).single_of_mem hcells (Or.inr hoperator)
  replace hcells : q.cells = [c] := hcells
  replace hmid : others ++ inner = join mid ++ p.gap := hmid
  refine ⟨front, q, mid, rfl, List.append_nil _, ?_, fun u hu => ?_⟩
  · rw [hcells, ← hmid]
    rfl
  · obtain ⟨before, after, hqmid⟩ := List.append_of_mem hu
    have hplace : (r.reading line).pieces = (front ++ before) ++ u :: (after ++ p :: back) := by
      rw [hsplit, List.append_assoc, List.cons_append, ← List.cons_append, hqmid]
      simp
    refine kept_of_generic h hgenerics hplace hgeneric fun d hd => ?_
    have hmem : d ∈ c :: others ++ inner := by
      rw [List.cons_append, hmid]
      rcases List.mem_cons.mp hu with rfl | hu
      · rw [hcells, List.mem_singleton] at hd
        exact List.mem_cons.mpr (Or.inl hd)
      · have hjoin : d ∈ join mid :=
          List.mem_flatMap.mpr ⟨u, hu, List.mem_append_right _ hd⟩
        exact List.mem_cons_of_mem _ (List.mem_append_left _ hjoin)
    rcases List.mem_append.mp hmem with hname | hangle
    · exact Or.inl (List.mem_map_of_mem hname)
    · exact Or.inr ⟨hinner d hangle, List.mem_map_of_mem (List.mem_append_left _ hangle)⟩

/-- A generic span around a protected character is copied, and no name comes to stand before it. -/
theorem exists_isGenericAt_spaced (h : r.IsRegular) (hgenerics : r.generics = true)
    (hsplit : (r.reading line).pieces = front ++ p :: back) (hp : p.cells = [x])
    (hbefore : join front ++ p.gap = first ++ (name ++ inner))
    (hafter : join back ++ (r.reading line).tail = outer ++ last)
    (hprotected : ∀ d ∈ inner ++ x :: outer, d.isProtected = true)
    (hgeneric : IsGenericAt (maskOf first) (maskOf name) (maskOf (inner ++ x :: outer))
      (maskOf last)) :
    ∃ newFirst newLast,
      (r.reading line).spaced = newFirst ++ (name ++ (inner ++ x :: outer ++ newLast)) ∧
      join (spread false front) ++ p.newGap (endsSetOff false front) =
        newFirst ++ (name ++ inner) ∧
      IsGenericAt (maskOf newFirst) (maskOf name) (maskOf (inner ++ x :: outer))
        (maskOf newLast) := by
  obtain ⟨hinner, hprotected⟩ := List.forall_mem_append.mp hprotected
  obtain ⟨hx, houter⟩ := List.forall_mem_cons.mp hprotected
  obtain ⟨front, q, mid, rfl, rfl, hmid, hkept⟩ :=
    exists_calm_pieces h hgenerics hsplit hbefore hinner hgeneric
  have hsound := isSound_of_mem h line
  rw [hsplit] at hsound
  simp only [List.forall_mem_append, List.forall_mem_cons] at hsound
  obtain ⟨⟨hfront, hq, -⟩, -, hback⟩ := hsound
  obtain ⟨⟨hqset, hqkeyword⟩, hmidKept⟩ := List.forall_mem_cons.mp hkept
  obtain ⟨hspread, hends⟩ :=
    spread_of_kept (fun u hu => (hmidKept u hu).1) fun u hu => (hmidKept u hu).2
  obtain ⟨hpset, hpkeyword⟩ := kept_of_generic h hgenerics hsplit hgeneric fun d hd => by
    rw [hp, List.mem_singleton] at hd
    rw [hd]
    exact Or.inr ⟨hx, by simp [maskOf]⟩
  obtain ⟨fixed, later, rfl, rfl, rfl, hfixed, hfixedEnds⟩ :=
    exists_protected_pieces hback (isGap_tail h) hafter houter
  have hgap : p.newGap (endsSetOff false (front ++ q :: mid)) = p.gap := by
    rw [endsSetOff_append, endsSetOff_cons, hqset, hends, Piece.newGap_of_kept hpset hpkeyword]
  have hplace : join (spread false (front ++ q :: mid)) ++ p.newGap (endsSetOff false
      (front ++ q :: mid)) = join (spread false front) ++ q.newGap (endsSetOff false front) ++
        (name ++ inner) := by
    rw [hmid, hgap, spread_append, spread_cons, hqset, hspread]
    simp
  refine ⟨join (spread false front) ++ q.newGap (endsSetOff false front),
    join (spread false later) ++ (r.reading line).tail, ?_, hplace, ?_, hgeneric.isGeneric,
    hgeneric.exists_results⟩
  · have hwhole : (r.reading line).spaced = join (spread false (front ++ q :: mid)) ++
        p.newGap (endsSetOff false (front ++ q :: mid)) ++
          (x :: (join (spread false (fixed ++ later)) ++ (r.reading line).tail)) := by
      rw [Reading.spaced, hsplit, spread_append, spread_cons, hpset]
      simp [hp]
    rw [hwhole, hplace, spread_append, hfixed, hfixedEnds]
    simp
  · rw [← takeWhile_backward_eq_nil_iff, takeWhile_backward_newGap isWordClass_isNamePart hfront hq
      hqset hqkeyword (takeWhile_backward_spread isWordClass_isNamePart hfront),
      takeWhile_backward_eq_nil_iff]
    exact hgeneric.previous

theorem isProtected_spaced (h : r.IsRegular)
    (hsplit : (r.reading line).pieces = front ++ p :: back) (hp : p.cells = [x])
    (hx : x.isProtected = true) (hchar : x.masked ∈ operatorChars) :
    isProtected (spans r.style r.generics (codes (r.reading line).spaced))
      (join (spread false front) ++ p.newGap (endsSetOff false front)).length = true := by
  have hcells := codeCells_eq_of_split h hsplit
  rw [hp, List.singleton_append] at hcells
  obtain ⟨hgenerics, first, name, inner, outer, last, hbefore, hafter, hprotected, hgeneric⟩ :=
    exists_generic_of_protected hcells hx (fun hmask => absurd (hmask ▸ hchar) (by decide))
      fun hquote => (h.quoteChars _ hquote).1 hchar
  obtain ⟨newFirst, newLast, hspaced, hplace, hnew⟩ :=
    exists_isGenericAt_spaced h hgenerics hsplit hp hbefore hafter hprotected hgeneric
  obtain ⟨m, hm, hstart, hstop⟩ := exists_anglePart_holds hnew
  have hmask : r.style.maskLiterals (codes (r.reading line).spaced) = maskOf newFirst ++
      (maskOf name ++ (maskOf (inner ++ x :: outer) ++ maskOf newLast)) := by
    rw [(isCode_spaced h line).masked_eq, hspaced]
    simp [maskOf]
  rw [← hmask] at hm hstart hstop
  rw [hplace, isProtected, List.any_eq_true]
  refine ⟨anglePart (r.style.maskLiterals (codes (r.reading line).spaced)) m,
    List.mem_append_right _ ?_, ?_⟩
  · rw [if_pos hgenerics]
    exact List.mem_map_of_mem hm
  · simp only [Span.holds, Bool.and_eq_true, decide_eq_true_eq]
    simp only [maskOf, List.length_append, List.length_map, List.length_cons] at hstart hstop ⊢
    omega

end Region

end OperatorSpacing

end LineLint
