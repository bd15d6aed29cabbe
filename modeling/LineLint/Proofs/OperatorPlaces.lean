import LineLint.Proofs.CopiedParts
import LineLint.Proofs.SettledPieces

/-!
# Operators by their place

Where an operator starts in the code of a line, outside literals, there is a piece of the reading,
and the verdict on it is the verdict on that place.
-/

namespace LineLint

open Cell (codes codes_append codes_cons)

structure LiteralStyle.IsInCode (style : LiteralStyle) (line : Text) (i : Nat) : Prop where
  lt : i < (style.splitComment line).1.length
  outside : ∀ s ∈ style.literals line, ¬(s.start ≤ i ∧ i < s.stop)

namespace OperatorSpacing

open LiteralStyle (IsInCode)

variable {r : OperatorSpacing} {line : Text} {before after : List Cell} {c : Cell} {i : Nat}

section Cells

theorem masked_eq_of_isInCode (hcells : r.codeCells line = before ++ c :: after)
    (h : IsInCode r.style line before.length) : c.masked = c.code := by
  have hat := isAt_of_split hcells
  rcases LiteralStyle.eq_or_isInside hat.code_eq hat.masked_eq with
    hsame | ⟨-, s, hs, hstart, hstop⟩
  · exact hsame
  · rw [LiteralStyle.literals_splitComment_fst] at hs
    exact absurd ⟨Nat.le_of_lt hstart, hstop⟩ (h.outside s hs)

theorem notProtected_of_isInCode (hgenerics : r.generics = false)
    (hcells : r.codeCells line = before ++ c :: after) (h : IsInCode r.style line before.length) :
    c.isProtected = false := by
  by_contra hprotected
  obtain ⟨s, hs, hholds⟩ := (isAt_of_split hcells).isProtected_iff.mp (by simpa using hprotected)
  rw [ProtectedSpan.spans, hgenerics, LiteralStyle.literals_splitComment_fst] at hs
  exact h.outside s (by simpa using hs) hholds

theorem exists_cells_of_length_le {before part after : Text}
    (h : (before ++ part).length ≤ (r.style.splitComment (before ++ part ++ after)).1.length) :
    ∃ first middle last, r.codeCells (before ++ part ++ after) = first ++ (middle ++ last) ∧
      codes first = before ∧ codes middle = part := by
  have hcode : (r.style.splitComment (before ++ part ++ after)).1 <+: before ++ part ++ after :=
    ⟨_, r.style.splitComment_append (before ++ part ++ after)⟩
  obtain ⟨rest, hrest⟩ := List.prefix_of_prefix_length_le (List.prefix_append _ _) hcode h
  have hcodes : codes (r.codeCells (before ++ part ++ after)) = before ++ (part ++ rest) := by
    rw [← List.append_assoc, hrest]
    exact Cell.codes_ofCode
  obtain ⟨first, others, hcells, hfirst, hothers⟩ := List.map_eq_append_iff.mp hcodes
  obtain ⟨middle, last, rfl, hmiddle, -⟩ := List.map_eq_append_iff.mp hothers
  exact ⟨first, middle, last, hcells, hfirst, hmiddle⟩

theorem exists_cells_of_isInCode {before part after : Text} (hne : part ≠ [])
    (h : ∀ i, before.length ≤ i → i < (before ++ part).length →
      IsInCode r.style (before ++ part ++ after) i) :
    ∃ first middle last, r.codeCells (before ++ part ++ after) = first ++ (middle ++ last) ∧
      codes first = before ∧ codes middle = part ∧ maskOf middle = part := by
  have hpos := List.length_pos_of_ne_nil hne
  have hlt := (h ((before ++ part).length - 1) (by rw [List.length_append]; omega)
    (by rw [List.length_append]; omega)).lt
  obtain ⟨first, middle, last, hcells, hfirst, hmiddle⟩ :=
    exists_cells_of_length_le (Nat.le_of_pred_lt hlt)
  refine ⟨first, middle, last, hcells, hfirst, hmiddle, ?_⟩
  rw [← hmiddle]
  refine List.map_congr_left fun c hc => ?_
  obtain ⟨front, back, rfl⟩ := List.append_of_mem hc
  have hplace : r.codeCells (before ++ part ++ after) =
      (first ++ front) ++ c :: (back ++ last) := by
    rw [hcells]
    simp
  refine masked_eq_of_isInCode hplace (h _ ?_ ?_)
  · rw [← hfirst, Cell.length_codes, List.length_append]
    exact Nat.le_add_right _ _
  · rw [← hfirst, ← hmiddle]
    simp only [List.length_append, Cell.length_codes, List.length_cons]
    omega

theorem notProtected_of_operator (h : r.IsRegular)
    (hcells : r.codeCells line = before ++ c :: after) (hchar : c.masked ∈ operatorChars)
    (hatom : ¬(ProtectedSpan.isAtom c.masked = true ∨ c.masked = '<' ∨ c.masked = '>')) :
    c.isProtected = false := by
  by_contra hprotected
  obtain ⟨-, first, name, inner, outer, last, -, -, -, hgeneric⟩ :=
    exists_generic_of_protected hcells (by simpa using hprotected)
      (fun hmask => absurd (hmask ▸ hchar) (by decide))
      fun hquote => (h.quoteChars _ hquote).1 hchar
  exact hatom (hgeneric.isGeneric.chars c.masked (by simp [maskOf]))

end Cells

section Pieces

theorem split_unique {ps front front' back back' : List Piece} {p p' : Piece}
    (hsplit : ps = front ++ p :: back) (hsplit' : ps = front' ++ p' :: back')
    (hstart : (join front ++ p.gap).length ≤ i)
    (hstop : i < (join front ++ p.gap ++ p.cells).length)
    (hstart' : (join front' ++ p'.gap).length ≤ i)
    (hstop' : i < (join front' ++ p'.gap ++ p'.cells).length) :
    front = front' ∧ p = p' ∧ back = back' := by
  rw [hsplit] at hsplit'
  rcases List.append_eq_append_iff.mp hsplit' with ⟨more, rfl, hmore⟩ | ⟨more, rfl, hmore⟩
  all_goals
    cases more with
    | nil =>
        obtain ⟨rfl, rfl⟩ := List.cons.inj hmore
        exact ⟨by simp, rfl, rfl⟩
    | cons u mid =>
        obtain ⟨rfl, -⟩ := List.cons.inj hmore
        simp only [join_append, join_cons, List.length_append] at hstart hstop hstart' hstop'
        omega

/-- What is read behind some blanks starts with a piece that has the blanks as its gap. -/
theorem exists_head_of_join {ps : List Piece} {tail gap last : List Cell} {y : Cell}
    (hsound : ∀ p ∈ ps, p.IsSound) (htail : ∀ d ∈ tail, isSpaceOrTab d.masked = true)
    (hgap : ∀ d ∈ gap, d.IsGap) (hy : isSpaceOrTab y.masked = false)
    (hsplit : join ps ++ tail = gap ++ y :: last) :
    ∃ p back outer, ps = p :: back ∧ p.gap = gap ∧ p.cells = y :: outer := by
  obtain ⟨front, p, back, inner, outer, rfl, hp, rfl, -⟩ :=
    exists_piece_of_split hsound htail hy hsplit
  have hnil : inner = [] := by
    cases inner with
    | nil => rfl
    | cons d inner =>
        exact absurd (hgap d (by simp)) ((hsound p (by simp)).not_isGap d (by rw [hp]; simp))
  rw [hnil] at hp
  cases front with
  | nil => exact ⟨p, back, outer, rfl, by simp [hnil], hp⟩
  | cons q front =>
      have hq := hsound q (by simp)
      obtain ⟨d, others, hcons⟩ := List.exists_cons_of_ne_nil hq.cells_ne_nil
      exact absurd (hgap d (by simp [hcons])) (hq.not_isGap d (by simp [hcons]))

/-- Two pieces that start at one place are the same. -/
theorem split_unique_of_start (h : r.IsRegular) {front front' back back' : List Piece}
    {p p' : Piece} (hsplit : (r.reading line).pieces = front ++ p :: back)
    (hsplit' : (r.reading line).pieces = front' ++ p' :: back')
    (hstart : (join front ++ p.gap).length = (join front' ++ p'.gap).length) :
    front = front' ∧ p = p' ∧ back = back' := by
  have hwithin {front back : List Piece} {p : Piece}
      (hsplit : (r.reading line).pieces = front ++ p :: back) :
      (join front ++ p.gap).length < (join front ++ p.gap ++ p.cells).length := by
    have hpos := List.length_pos_of_ne_nil (isSound_of_split h hsplit).cells_ne_nil
    rw [@List.length_append _ _ p.cells]
    omega
  exact split_unique hsplit hsplit' (Nat.le_of_eq hstart) (hstart ▸ hwithin hsplit)
    (Nat.le_refl _) (hwithin hsplit')

theorem changesGapAt_place_iff (h : r.IsRegular) {front back : List Piece} {p : Piece}
    (hsplit : (r.reading line).pieces = front ++ p :: back) :
    (r.reading line).ChangesGapAt (join front ++ p.gap).length ↔
      codes (p.newGap (endsSetOff false front)) ≠ codes p.gap := by
  refine ⟨?_, fun hchanged => ⟨front, p, back, hsplit, rfl, hchanged⟩⟩
  rintro ⟨front', q, back', hsplit', hplace, hchanged⟩
  obtain ⟨rfl, rfl, -⟩ := split_unique_of_start h hsplit' hsplit hplace
  exact hchanged

/-- At a place of the line starts an operator that is set off because it is too tight. -/
def Reading.IsTightAt (d : Reading) (i : Nat) : Prop :=
  ∃ front p back, d.pieces = front ++ p :: back ∧ (join front ++ p.gap).length = i ∧
    p.isTight = true

theorem isTightAt_place_iff (h : r.IsRegular) {front back : List Piece} {p : Piece}
    (hsplit : (r.reading line).pieces = front ++ p :: back) :
    (r.reading line).IsTightAt (join front ++ p.gap).length ↔ p.isTight = true := by
  refine ⟨?_, fun htight => ⟨front, p, back, hsplit, rfl, htight⟩⟩
  rintro ⟨front', q, back', hsplit', hplace, htight⟩
  obtain ⟨rfl, rfl, -⟩ := split_unique_of_start h hsplit' hsplit hplace
  exact htight

theorem operators_ne_nil_iff (h : r.IsRegular) (line : Text) :
    (r.normalize line).operators ≠ [] ↔ ∃ i, (r.reading line).IsTightAt i := by
  rw [normalize_eq h, Reading.tightOperators, Ne, List.map_eq_nil_iff, List.filter_eq_nil_iff]
  constructor
  · intro hsome
    push Not at hsome
    obtain ⟨p, hp, htight⟩ := hsome
    obtain ⟨front, back, hsplit⟩ := List.append_of_mem hp
    exact ⟨_, front, p, back, hsplit, rfl, htight⟩
  · rintro ⟨_, front, p, back, hsplit, -, htight⟩ hnone
    exact hnone p (by rw [hsplit]; simp) htight

/-- A token that cannot go on with the character behind its first one is a single character. -/
theorem eq_singleton_of_prefix {token rest : Text} {x : Char} (hne : token ≠ [])
    (hbegins : token <+: x :: rest)
    (hends : token.head? = some x → ∀ y ∈ rest.head?, y ∉ token.tail) : token = [x] := by
  obtain ⟨y, others, rfl⟩ := List.exists_cons_of_ne_nil hne
  obtain ⟨rfl, hothers⟩ := List.cons_prefix_cons.mp hbegins
  cases others with
  | nil => rfl
  | cons z others =>
      cases rest with
      | nil => exact absurd hothers (by simp)
      | cons w rest =>
          obtain ⟨rfl, -⟩ := List.cons_prefix_cons.mp hothers
          exact absurd List.mem_cons_self (hends rfl z rfl)

/-- No operator goes over a character that no operator character stands before, or that no operator
goes on with: a piece with the character starts with it. -/
theorem eq_nil_of_not_continues (h : r.IsRegular) {p : Piece} {inner outer : List Cell}
    (hp : p.cells = inner ++ c :: outer)
    (hshape : p.IsSingle r.table.byLength after ∨
      ∃ token, p.IsOperator r r.table.byLength before after token)
    (hfirst : (∀ d ∈ inner.getLast?, d.masked ∉ operatorChars) ∨
      ∀ token ∈ r.table.byLength, c.masked ∉ token.tail) : inner = [] := by
  rcases List.eq_nil_or_concat inner with hnil | ⟨inner, d, rfl⟩
  · exact hnil
  rw [List.concat_eq_append] at hp hfirst
  exfalso
  rcases hshape with hsingle | ⟨token, htoken⟩
  · obtain ⟨x, hx, -⟩ := hsingle.exists_cell
    rw [hx] at hp
    have hlength := congrArg List.length hp
    simp only [List.length_append, List.length_cons, List.length_nil] at hlength
    omega
  · rcases hfirst with hprevious | htail
    · exact hprevious d (by simp)
        (htoken.isToken.masked_mem h.operators htoken.mem d (by rw [hp]; simp))
    · refine htail token htoken.mem ?_
      rw [← htoken.isToken.masked_eq, hp]
      cases inner <;> simp

/-- A character that is an operator, and in which no longer operator can stand, is a piece. -/
theorem exists_single_operator (h : r.IsRegular) (hcells : r.codeCells line = before ++ c :: after)
    (hplain : c.isProtected = false)
    (hfirst : (∀ d ∈ before.getLast?, d.masked ∉ operatorChars) ∨
      ∀ token ∈ r.table.byLength, c.masked ∉ token.tail)
    (hmem : [c.masked] ∈ r.table.byLength)
    (hends : ∀ token ∈ r.table.byLength, token.head? = some c.masked →
      ∀ x ∈ (maskOf after).head?, x ∉ token.tail) :
    ∃ front p back, (r.reading line).pieces = front ++ p :: back ∧ join front ++ p.gap = before ∧
      p.cells = [c] ∧ join back ++ (r.reading line).tail = after ∧
      p.IsOperator r r.table.byLength before after [c.masked] := by
  have hchar : c.masked ∈ operatorChars := (h.operators _ hmem).2 _ (List.mem_singleton_self _)
  have hsolid : isSpaceOrTab c.masked = false :=
    isSpaceOrTab_of_not_isBlank (isBlank_of_mem_operatorChars _ hchar)
  have hreads := (reads_reading h line).cells_eq
  obtain ⟨front, p, back, inner, outer, hsplit, hp, hbefore, hafter⟩ := exists_piece_of_split
    (isSound_of_mem h _) (isSpaceOrTab_masked (gap_tail h _)) hsolid (hreads.trans hcells)
  have hplaced := isPlaced_of_split h hsplit
  obtain rfl : inner = [] := by
    refine eq_nil_of_not_continues h hp hplaced.shape (hfirst.imp_left fun hprevious d hd => ?_)
    refine hprevious d ?_
    rw [hbefore]
    exact List.mem_getLast?_append_of_mem_getLast? hd
  rw [List.append_nil] at hbefore
  have hread : p.cells ++ (join back ++ (r.reading line).tail) = c :: after := by
    rw [hp, hafter]
    rfl
  refine ⟨front, p, back, hsplit, hbefore.symm, ?_⟩
  rcases hplaced.shape with hsingle | ⟨token, htoken⟩
  · exfalso
    obtain ⟨x, hx, -, hnone⟩ := hsingle.exists_cell
    rw [hx, List.singleton_append] at hread
    obtain ⟨rfl, hrest⟩ := List.cons.inj hread
    rw [hplain, hrest, operatorAt?_eq, List.find?_eq_none] at hnone
    refine hnone.resolve_left Bool.false_ne_true _ hmem (List.isPrefixOf_iff_prefix.mpr ?_)
    exact List.cons_prefix_cons.mpr ⟨rfl, List.nil_prefix⟩
  · have hbegins : token <+: c.masked :: maskOf after := by
      have hwithin := prefix_of_operatorAt? htoken.operatorAt
      rwa [hread] at hwithin
    obtain rfl := eq_singleton_of_prefix (h.operators token htoken.mem).1 hbegins
      (hends token htoken.mem)
    have hlength : p.cells.length = 1 := htoken.isToken.length_eq
    obtain ⟨hsame, hrest⟩ : p.cells = [c] ∧ join back ++ (r.reading line).tail = after :=
      List.append_inj hread hlength
    rw [← hbefore, hrest] at htoken
    exact ⟨hsame, hrest, htoken⟩

/-- The piece behind an operator is no operator that is set off, and no parenthesis of a call. -/
theorem kept_behind_operator (h : r.IsRegular) {front back : List Piece} {p q : Piece}
    {token : Text} {before after : List Cell}
    (hsplit : (r.reading line).pieces = front ++ p :: q :: back)
    (htoken : p.IsOperator r r.table.byLength before after token) :
    q.isSetOff = false ∧ q.keyword = none := by
  have hbehind : (r.reading line).pieces = (front ++ [p]) ++ q :: back := by
    rw [hsplit, List.append_assoc, List.singleton_append]
  obtain ⟨others, x, hconcat⟩ :=
    (List.eq_nil_or_concat p.cells).resolve_left htoken.isToken.ne_nil
  have hback : backward (join (front ++ [p])) =
      x.masked :: backward (join front ++ p.gap ++ others) := by
    simp [hconcat]
  exact kept_of_backward h hbehind hback
    (htoken.isToken.masked_mem h.operators htoken.mem x (by rw [hconcat]; simp))

end Pieces

end OperatorSpacing

end LineLint
