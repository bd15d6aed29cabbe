import LineLint.Proofs.OperatorPlaces
import LineLint.Proofs.SpacingReports

/-!
# Block comments on the spaced line

Only line comments are set apart from the code; a block comment is read as operators and names. The
slash that opens it is taken for a division where a value stands before it, and within the comment
operators are spaced as everywhere.
-/

namespace LineLint

open Cell (codes)
open LiteralStyle (IsInCode)

/-- A block comment, which ends where it is closed for the first time. -/
structure BlockComment where
  body : Text
  not_closed : ¬['*', '/'] <:+: body ++ ['*']

namespace BlockComment

variable (c : BlockComment)

def opening : Text := ['/', '*']

def text : Text := opening ++ (c.body ++ ['*', '/'])

/-- The comment opens in the code of a line, outside literals. -/
def StandsIn (style : LiteralStyle) (before after : Text) : Prop :=
  ∀ i, before.length ≤ i → i < (before ++ opening).length →
    IsInCode style (before ++ c.text ++ after) i

def span (before : Text) : Span := ⟨before.length, (before ++ c.text).length⟩

end BlockComment

namespace OperatorSpacing

variable {c : BlockComment} {r : OperatorSpacing} {before after : Text}

section Tables

/-- In languages with block comments a slash is a binary operator, and a star behind it is another
one. -/
structure DividesBySlash (r : OperatorSpacing) : Prop where
  mem : ['/'] ∈ r.table.byLength
  verbatim : r.table.verbatim.contains ['/'] = false
  unaryCapable : r.table.unaryCapable.contains ['/'] = false
  tail : ∀ token ∈ r.table.byLength, '/' ∉ token.tail
  star : ∀ token ∈ r.table.byLength, token.head? = some '/' → '*' ∉ token.tail

theorem dividesBySlash_of_mem_builtin :
    ∀ r ∈ builtin, r.style.blockComments = true → r.DividesBySlash := by
  have htables : builtin.all (fun r => !r.style.blockComments ||
      ((r.table.binary ++ r.table.verbatim).contains ['/'] &&
        !r.table.verbatim.contains ['/'] && !r.table.unaryCapable.contains ['/'] &&
        (r.table.binary ++ r.table.verbatim).all fun token => !token.tail.contains '/' &&
          (token.head? != some '/' || !token.tail.contains '*'))) = true := by
    decide +kernel
  intro r hr hblock
  have htable := List.all_eq_true.mp htables r hr
  simp only [hblock, Bool.not_true, Bool.false_or, Bool.and_eq_true, Bool.not_eq_true',
    List.all_eq_true, Bool.or_eq_true] at htable
  obtain ⟨⟨⟨hmem, hverbatim⟩, hunary⟩, htokens⟩ := htable
  refine ⟨mem_byLength.mpr (List.contains_iff_mem.mp hmem), hverbatim, hunary,
    fun token htoken => ?_, fun token htoken hhead => ?_⟩
  · simpa using (htokens token (mem_byLength.mp htoken)).1
  · simpa [hhead] using (htokens token (mem_byLength.mp htoken)).2

end Tables

section Opening

theorem setsOff_slash (h : r.DividesBySlash) {reversed : Text} {depth : Nat} {after : List Cell} :
    r.setsOff ['/'] reversed depth after = !expectsOperand reversed := by
  have hequals : (['/'] == ['=']) = false := rfl
  have hexponent : inExponent ['/'] reversed = false := rfl
  rw [setsOff, keeps, h.verbatim, h.unaryCapable, hequals, hexponent]
  simp

theorem codeCells_of_standsIn (hat : c.StandsIn r.style before after) :
    ∃ first x y last, r.codeCells (before ++ c.text ++ after) = first ++ x :: y :: last ∧
      codes first = before ∧ x.code = '/' ∧ x.masked = '/' ∧ y.code = '*' ∧ y.masked = '*' := by
  have hline : before ++ c.text ++ after =
      before ++ BlockComment.opening ++ (c.body ++ ['*', '/'] ++ after) := by
    simp [BlockComment.text]
  rw [BlockComment.StandsIn, hline] at hat
  rw [hline]
  obtain ⟨first, middle, last, hcells, hfirst, hcodes, hmasked⟩ :=
    exists_cells_of_isInCode (List.cons_ne_nil _ _) hat
  obtain ⟨x, others, rfl, hx, hothers⟩ := List.map_eq_cons_iff.mp hcodes
  obtain ⟨y, others, rfl, hy, hnil⟩ := List.map_eq_cons_iff.mp hothers
  obtain rfl := List.map_eq_nil_iff.mp hnil
  obtain ⟨hxmask, hrest⟩ := List.cons.inj hmasked
  exact ⟨first, x, y, last, hcells, hfirst, hx, hxmask, hy, (List.cons.inj hrest).1⟩

theorem exists_pieces_of_opening (hr : r ∈ builtin) (hblock : r.style.blockComments = true)
    (hat : c.StandsIn r.style before after) :
    ∃ front slash star back,
      (r.reading (before ++ c.text ++ after)).pieces = front ++ slash :: star :: back ∧
        (join front ++ slash.gap).length = before.length ∧ slash.cells.length = 1 ∧
          star.gap = [] ∧ star.isSetOff = false ∧ star.keyword = none ∧
            slash.isSetOff = !expectsOperand ((r.style.maskLiterals (r.style.splitComment
              (before ++ c.text ++ after)).1).take before.length).reverse := by
  have h := isRegular_of_mem_builtin r hr
  have htables := dividesBySlash_of_mem_builtin r hr hblock
  obtain ⟨first, x, y, last, hcells, rfl, -, hx, -, hy⟩ := codeCells_of_standsIn hat
  have hplain : x.isProtected = false := by
    refine notProtected_of_operator h hcells ?_ ?_
    all_goals
      rw [hx]
      decide
  have hends : ∀ token ∈ r.table.byLength, token.head? = some x.masked →
      ∀ z ∈ (maskOf (y :: last)).head?, z ∉ token.tail := by
    intro token htoken hhead z hz
    obtain rfl : y.masked = z := Option.some.inj hz
    rw [hy]
    exact htables.star token htoken (hhead.trans (congrArg some hx))
  obtain ⟨front, slash, back, hsplit, hbefore, hslash, hbehind, htoken⟩ := exists_single_operator h
    hcells hplain (Or.inr (hx ▸ htables.tail)) (hx ▸ htables.mem) hends
  rw [hx] at htoken
  have hsound := isSound_of_mem h (codes first ++ c.text ++ after)
  rw [hsplit] at hsound
  simp only [List.forall_mem_append, List.forall_mem_cons] at hsound
  obtain ⟨star, back, -, rfl, hgap, -⟩ := exists_head_of_join hsound.2.2
    (isSpaceOrTab_masked (gap_tail h _)) (List.forall_mem_nil _) (by rw [hy]; rfl) hbehind
  obtain ⟨hset, hkeyword⟩ := kept_behind_operator h hsplit htoken
  refine ⟨front, slash, star, back, hsplit, ?_, by rw [hslash]; rfl, hgap, hset, hkeyword, ?_⟩
  · rw [hbefore, Cell.length_codes]
  · have hmask : (r.style.maskLiterals (r.style.splitComment
        (codes first ++ c.text ++ after)).1).take (codes first).length = maskOf first := by
      rw [← masked_codeCells, hcells, List.map_append, Cell.length_codes]
      exact List.take_left' (List.length_map _)
    rw [htoken.isSetOff_eq, setsOff_slash htables, hmask]
    rfl

/-- The two characters are torn apart exactly if a value stands before them. -/
theorem changesGapAt_opening_iff (hr : r ∈ builtin) (hblock : r.style.blockComments = true)
    (hat : c.StandsIn r.style before after) :
    (r.reading (before ++ c.text ++ after)).ChangesGapAt (before.length + 1) ↔
      expectsOperand ((r.style.maskLiterals (r.style.splitComment
        (before ++ c.text ++ after)).1).take before.length).reverse = false := by
  have h := isRegular_of_mem_builtin r hr
  obtain ⟨front, slash, star, back, hsplit, hplace, hslash, hgap, hkept, hkeyword, hset⟩ :=
    exists_pieces_of_opening hr hblock hat
  have hstar :
      (r.reading (before ++ c.text ++ after)).pieces = (front ++ [slash]) ++ star :: back := by
    rw [hsplit, List.append_assoc, List.singleton_append]
  have hlength : (join (front ++ [slash]) ++ star.gap).length = before.length + 1 := by
    rw [hgap, List.append_nil, join_append, join_cons, join_nil, List.append_nil,
      ← List.append_assoc, List.length_append, hplace, hslash]
  have hnew : star.newGap slash.isSetOff = if slash.isSetOff then [Cell.space] else [] := by
    simp [Piece.newGap, callGap, hkept, hkeyword, hgap]
  rw [← hlength, changesGapAt_place_iff h hstar, endsSetOff_concat, hnew, hgap, hset]
  cases expectsOperand _ <;> simp

end Opening

/-- In every language with block comments, a comment is copied exactly if no value stands before it
and no gap behind its opening is changed. -/
theorem isCopied_blockComment_iff (hr : r ∈ builtin) (hblock : r.style.blockComments = true)
    (c : BlockComment) (before after : Text) (hat : c.StandsIn r.style before after) :
    (c.span before).IsCopied (before ++ c.text ++ after)
        (r.normalize (before ++ c.text ++ after)).line ↔
      expectsOperand ((r.style.maskLiterals (r.style.splitComment
        (before ++ c.text ++ after)).1).take before.length).reverse = true ∧
      ∀ i, before.length + 2 ≤ i → i < (before ++ c.text).length →
        ¬(r.reading (before ++ c.text ++ after)).ChangesGapAt i := by
  have h := isRegular_of_mem_builtin r hr
  obtain ⟨first, x, y, last, hcells, hfirst, hx, hxmask, -, -⟩ := codeCells_of_standsIn hat
  have hopening := changesGapAt_opening_iff hr hblock hat
  rw [BlockComment.span, isCopied_part_iff h hcells hfirst (by rw [hx]; rfl) (by rw [hxmask]; rfl)
    (List.cons_ne_nil _ _) fun d hd => ?_]
  · constructor
    · intro hkept
      refine ⟨?_, fun i hstart => hkept i (Nat.lt_of_succ_lt hstart)⟩
      rw [← Bool.not_eq_false, ← hopening]
      refine hkept _ (Nat.lt_succ_self _) ?_
      simp [BlockComment.text, BlockComment.opening]
    · rintro ⟨hoperand, hkept⟩ i hstart hstop
      rcases Nat.eq_or_lt_of_le (Nat.succ_le_of_lt hstart) with rfl | hlater
      · rw [hopening, hoperand]
        exact Bool.noConfusion
      · exact hkept i hlater hstop
  · have hlast : c.text.getLast? = some '/' := by simp [BlockComment.text]
    rw [hlast] at hd
    rw [← Option.some.inj hd]
    rfl

def wordComment : BlockComment where
  body := " one ".toList
  not_closed := by decide

theorem isCopied_blockComment_iff_wordComment :
    ∃ r ∈ builtin, r.table = CSharp.operators ∧ r.style.blockComments = true ∧
      wordComment.StandsIn r.style "int x=1 ".toList ";".toList ∧
      (r.normalize "int x=1 /* one */;".toList).line = "int x = 1 / * one */;".toList ∧
      ¬(wordComment.span "int x=1 ".toList).IsCopied "int x=1 /* one */;".toList
        (r.normalize "int x=1 /* one */;".toList).line := by
  have hmem : { table := CSharp.operators, style := CSharp.profile.style, skipped := [['#']] } ∈
      builtin := List.mem_cons_self
  have hblock : CSharp.profile.style.blockComments = true := rfl
  have hscan : CSharp.profile.style.splitComment "int x=1 /* one */;".toList =
      ("int x=1 /* one */;".toList, []) ∧
      CSharp.profile.style.literals "int x=1 /* one */;".toList = [] := by
    decide +kernel
  have hstands : wordComment.StandsIn CSharp.profile.style "int x=1 ".toList ";".toList := by
    refine fun i _ hi => ⟨?_, fun span hspan => ?_⟩
    · change i < (CSharp.profile.style.splitComment "int x=1 /* one */;".toList).1.length
      rw [hscan.1]
      exact Nat.lt_trans hi (by decide)
    · change span ∈ CSharp.profile.style.literals "int x=1 /* one */;".toList at hspan
      rw [hscan.2] at hspan
      cases hspan
  have hsorted := CSharp.byLength_operators
  refine ⟨_, hmem, rfl, hblock, hstands, ?_, fun hcopied => ?_⟩
  · rw [normalize, hsorted]
    decide +kernel
  · have hoperand := ((isCopied_blockComment_iff hmem hblock wordComment "int x=1 ".toList
      ";".toList hstands).mp hcopied).1
    revert hoperand
    decide +kernel

end OperatorSpacing

end LineLint
