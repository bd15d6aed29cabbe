import LineLint.Proofs.OperatorPlaces
import LineLint.Proofs.SoundLayout
import LineLint.Proofs.SpacingReports

/-!
# Arguments on the spaced line

Where brackets count, a single equals sign is left alone if a bracket is open before it on its own
line. Brackets that earlier lines leave open are not seen: there the sign is spaced as an assignment
is.
-/

namespace LineLint

open Cell (codes codes_append codes_cons)
open LiteralStyle (IsInCode)

namespace Text

variable {t gap : Text}

theorem takeWhile_gap_append (hgap : ∀ c ∈ gap, isSpaceOrTab c = true)
    (ht : ∀ c ∈ t.head?, isSpaceOrTab c = false) : (gap ++ t).takeWhile isSpaceOrTab = gap := by
  rw [List.takeWhile_append_of_pos hgap]
  cases t with
  | nil => rw [List.takeWhile_nil, List.append_nil]
  | cons c t => rw [List.takeWhile_cons_of_neg (by simp [ht c rfl]), List.append_nil]

theorem rtakeWhile_append_gap (hgap : ∀ c ∈ gap, isSpaceOrTab c = true)
    (ht : ∀ c ∈ t.getLast?, isSpaceOrTab c = false) : (t ++ gap).rtakeWhile isSpaceOrTab = gap := by
  rw [List.rtakeWhile, List.reverse_append, takeWhile_gap_append, List.reverse_reverse]
  · exact fun c hc => hgap c (List.mem_reverse.mp hc)
  · rwa [List.head?_reverse]

end Text

structure EqualsSign where
  before : Text
  after : Text
  alone : ∀ c ∈ before.getLast?, c ∉ OperatorSpacing.operatorChars
  single : after.head? ≠ some '='

namespace EqualsSign

variable (e : EqualsSign)

def line : Text := e.before ++ '=' :: e.after

def maskedBefore (style : LiteralStyle) : Text :=
  (style.maskLiterals (style.splitComment e.line).1).take e.before.length

def codeBehind (style : LiteralStyle) : Text :=
  (style.splitComment e.line).1.drop (e.before.length + 1)

/-- The brackets that are open before the sign on its own line. -/
def openBrackets (style : LiteralStyle) : Nat :=
  (e.maskedBefore style).foldl OperatorSpacing.depthAfter 0

/-- The sign has a value before it, and no bracket is open there on its own line. -/
def isSetOff (style : LiteralStyle) : Bool :=
  !OperatorSpacing.expectsOperand (e.maskedBefore style).reverse && e.openBrackets style == 0

def meets (style : LiteralStyle) : Bool :=
  !(e.maskedBefore style).getLast?.any isBlank ||
    (e.codeBehind style).head?.any fun c => !isBlank c

def followsOperator (style : LiteralStyle) : Bool :=
  ((e.maskedBefore style).reverse.find? fun c => !isSpaceOrTab c).any
    OperatorSpacing.operatorChars.contains

/-- The texts that stand beside the sign on the new line. They are those of the line with single
spaces beside a sign that is set off; otherwise the blanks beside the sign stay, but for those that
are beside another operator too. -/
structure Spaced (style : LiteralStyle) (first rest : Text) : Prop where
  solid_first : first.solid = e.before.solid
  solid_rest : rest.solid = e.after.solid
  before_setOff : e.isSetOff style = true → first.rtakeWhile isSpaceOrTab = [' ']
  before_kept : e.isSetOff style = false → e.followsOperator style = false →
    first.rtakeWhile isSpaceOrTab = e.before.rtakeWhile isSpaceOrTab
  behind : rest.takeWhile isSpaceOrTab =
    if e.isSetOff style && (e.codeBehind style).any fun c => !isSpaceOrTab c then [' ']
    else e.after.takeWhile isSpaceOrTab

end EqualsSign

namespace OperatorSpacing

variable {r : OperatorSpacing} {e : EqualsSign} {first rest : List Cell} {sign : Cell}

section Cells

structure SignCells (r : OperatorSpacing) (e : EqualsSign) (first rest : List Cell) (sign : Cell) :
    Prop where
  cells_eq : r.codeCells e.line = first ++ sign :: rest
  first_eq : codes first = e.before
  code_eq : sign.code = '='
  masked_eq : sign.masked = '='
  plain : sign.isProtected = false

theorem exists_cells_of_equalsSign (hgenerics : r.generics = false)
    (hat : IsInCode r.style e.line e.before.length) :
    ∃ first rest sign, SignCells r e first rest sign := by
  have hsame : e.line = e.before ++ ['='] ++ e.after := List.append_cons ..
  have hpart : ∀ i, e.before.length ≤ i → i < (e.before ++ ['=']).length →
      IsInCode r.style (e.before ++ ['='] ++ e.after) i := by
    intro i hstart hstop
    rw [List.length_append, List.length_singleton] at hstop
    obtain rfl : i = e.before.length := by omega
    rwa [← hsame]
  obtain ⟨first, middle, rest, hcells, hfirst, hmiddle, hmasked⟩ :=
    exists_cells_of_isInCode (List.cons_ne_nil '=' []) hpart
  obtain ⟨sign, others, rfl, hsign, hnil⟩ := List.map_eq_cons_iff.mp hmiddle
  obtain rfl := List.map_eq_nil_iff.mp hnil
  rw [← hsame] at hcells
  refine ⟨first, rest, sign, hcells, hfirst, hsign, (List.cons.inj hmasked).1, ?_⟩
  refine notProtected_of_isInCode hgenerics hcells ?_
  rwa [← Cell.length_codes, hfirst]

variable (hc : SignCells r e first rest sign)

include hc

theorem SignCells.code_line :
    (r.style.splitComment e.line).1 = e.before ++ '=' :: codes rest := by
  have hcodes : codes (r.codeCells e.line) = (r.style.splitComment e.line).1 := Cell.codes_ofCode
  rw [← hcodes, hc.cells_eq, codes_append, codes_cons, hc.first_eq, hc.code_eq]

theorem SignCells.after_eq : codes rest ++ (r.style.splitComment e.line).2 = e.after := by
  have hline := r.style.splitComment_append e.line
  rw [hc.code_line, List.append_assoc, List.cons_append] at hline
  exact (List.cons.inj (List.append_cancel_left hline)).2

theorem SignCells.codeBehind_eq : e.codeBehind r.style = codes rest := by
  rw [EqualsSign.codeBehind, hc.code_line, List.append_cons]
  exact List.drop_left' (by rw [List.length_append, List.length_singleton])

theorem SignCells.maskedBefore_eq : e.maskedBefore r.style = maskOf first := by
  have hlength : e.before.length = (maskOf first).length := by
    rw [← hc.first_eq, Cell.length_codes, maskOf, List.length_map]
  rw [EqualsSign.maskedBefore, ← masked_codeCells, hc.cells_eq, List.map_append, hlength]
  exact List.take_left

theorem SignCells.masked_head : ∀ c ∈ rest.head?, c.masked = c.code := by
  intro c hhead
  obtain ⟨others, hothers⟩ := List.head?_eq_some_iff.mp hhead
  have hcells := hc.cells_eq
  rw [hothers] at hcells
  exact masked_eq_of_start hcells hc.plain

theorem SignCells.masked_getLast : ∀ d ∈ first.getLast?, d.masked ∉ operatorChars := by
  intro d hlast
  obtain ⟨others, rfl⟩ := List.getLast?_eq_some_iff.mp hlast
  have hcells : r.codeCells e.line = others ++ d :: (sign :: rest) := by
    rw [hc.cells_eq, List.append_assoc, List.singleton_append]
  have hat := isAt_of_split hcells
  rcases LiteralStyle.eq_or_isInside hat.code_eq hat.masked_eq with hsame | ⟨hmask, -⟩
  · refine hsame ▸ e.alone d.code ?_
    rw [← hc.first_eq, codes_append, codes_cons, Cell.codes_nil, List.getLast?_concat]
    rfl
  · rw [hmask]
    decide

theorem SignCells.meets_eq :
    e.meets r.style = (tightBefore (backward first) || tightAfter rest) := by
  rw [EqualsSign.meets, hc.maskedBefore_eq, hc.codeBehind_eq, tightBefore, tightAfter, backward,
    List.head?_reverse]
  refine congrArg₂ or rfl ?_
  cases rest with
  | nil => rfl
  | cons c rest => simp [hc.masked_head c rfl]

end Cells

section Pieces

structure SpacesAssignments (r : OperatorSpacing) : Prop extends IsRegular r where
  mem : ['='] ∈ r.table.byLength
  verbatim : r.table.verbatim.contains ['='] = false
  unaryCapable : r.table.unaryCapable.contains ['='] = false
  keywordArguments : r.keywordArguments = true
  /-- An operator that starts with an equals sign goes on with equals signs. -/
  tail : ∀ token ∈ r.table.byLength, token.head? = some '=' → ∀ c ∈ token.tail, c = '='

theorem spacesAssignments_python : Python.spacing.SpacesAssignments := by
  have hsorted : Python.spacing.table.byLength = _ := Python.byLength_operators
  have htails : (Python.operators.binary ++ Python.operators.verbatim).all (fun token =>
      token.head? != some '=' || token.tail.all (· == '=')) = true := by
    decide
  refine ⟨isRegular_of_mem_builtin _ (by simp [builtin]), ?_, rfl, by decide, rfl,
    fun token htoken hhead => ?_⟩
  · rw [hsorted]
    decide
  · rw [hsorted] at htoken
    simpa [hhead] using List.all_eq_true.mp htails token htoken

theorem setsOff_sign (h : r.SpacesAssignments) (reversed : Text) (depth : Nat)
    (after : List Cell) :
    r.setsOff ['='] reversed depth after = (!expectsOperand reversed && depth == 0) := by
  have hexponent : inExponent ['='] reversed = false := rfl
  rw [setsOff, keeps, h.verbatim, h.unaryCapable, h.keywordArguments, hexponent]
  cases expectsOperand reversed <;> cases depth <;> simp

structure SignPiece (r : OperatorSpacing) (e : EqualsSign) (front back : List Piece) (p : Piece) :
    Prop where
  pieces_eq : (r.reading e.line).pieces = front ++ p :: back
  cells_eq : codes p.cells = ['=']
  plain : ∀ c ∈ p.cells, c.isProtected = false
  before_eq : codes (join front ++ p.gap) = e.before
  masked_eq : e.maskedBefore r.style = maskOf (join front ++ p.gap)
  behind_eq : e.codeBehind r.style = codes (join back ++ (r.reading e.line).tail)
  after_eq : codes (join back ++ (r.reading e.line).tail) ++ (r.style.splitComment e.line).2 =
    e.after
  isSetOff_eq : p.isSetOff = e.isSetOff r.style
  isTight_eq : p.isTight = (e.isSetOff r.style && e.meets r.style)
  keyword : p.keyword = none
  behind : ∀ q others, back = q :: others → q.isSetOff = false ∧ q.keyword = none

theorem exists_piece_of_equalsSign (h : r.SpacesAssignments)
    (hat : IsInCode r.style e.line e.before.length) :
    ∃ front p back, SignPiece r e front back p := by
  have hregular := h.toIsRegular
  obtain ⟨first, rest, sign, hc⟩ :=
    exists_cells_of_equalsSign (hregular.arguments h.keywordArguments) hat
  have hends : ∀ token ∈ r.table.byLength, token.head? = some sign.masked →
      ∀ x ∈ (maskOf rest).head?, x ∉ token.tail := by
    intro token htoken hhead x hx hmem
    rw [hc.masked_eq] at hhead
    cases rest with
    | nil => cases hx
    | cons c rest =>
        obtain rfl : c.masked = x := Option.some.inj hx
        have hequals := h.tail token htoken hhead _ hmem
        rw [hc.masked_head c rfl] at hequals
        exact e.single (by rw [← hc.after_eq, codes_cons, hequals]; rfl)
  obtain ⟨front, p, back, hsplit, hbefore, hcells, hrest, htoken⟩ := exists_single_operator
    hregular hc.cells_eq hc.plain (Or.inl hc.masked_getLast) (hc.masked_eq ▸ h.mem) hends
  rw [hc.masked_eq] at htoken
  have hset : p.isSetOff = e.isSetOff r.style := by
    have hdepth : depthOf first = e.openBrackets r.style := by
      rw [depthOf_eq_foldl hregular h.keywordArguments hc.cells_eq, EqualsSign.openBrackets,
        hc.maskedBefore_eq]
    rw [htoken.isSetOff_eq, setsOff_sign h, hdepth, EqualsSign.isSetOff, hc.maskedBefore_eq]
    rfl
  have htight : p.isTight = (e.isSetOff r.style && e.meets r.style) := by
    rw [htoken.isTight_eq, hset, hc.meets_eq]
    rfl
  refine ⟨front, p, back, hsplit, ?_, ?_, ?_, ?_, ?_, ?_, hset, htight,
    htoken.keyword_eq_none h.operators (isSound_of_split hregular hsplit), ?_⟩
  · rw [hcells, codes_cons, hc.code_eq]
    rfl
  · rw [hcells]
    exact List.forall_mem_singleton.mpr hc.plain
  · rw [hbefore, hc.first_eq]
  · rw [hbefore, hc.maskedBefore_eq]
  · rw [hrest, hc.codeBehind_eq]
  · rw [hrest, hc.after_eq]
  · rintro q others rfl
    exact kept_behind_operator hregular hsplit htoken

theorem isTightAt_equalsSign (h : r.SpacesAssignments)
    (hat : IsInCode r.style e.line e.before.length) :
    (r.reading e.line).IsTightAt e.before.length ↔
      e.isSetOff r.style = true ∧ e.meets r.style = true := by
  obtain ⟨front, p, back, hp⟩ := exists_piece_of_equalsSign h hat
  rw [← hp.before_eq, Cell.length_codes, isTightAt_place_iff h.toIsRegular hp.pieces_eq,
    hp.isTight_eq, Bool.and_eq_true]

theorem SignPiece.any_codeBehind (h : r.SpacesAssignments) {front back : List Piece} {p : Piece}
    (hp : SignPiece r e front back p) :
    ((e.codeBehind r.style).any fun c => !isSpaceOrTab c) = !back.isEmpty := by
  have hregular := h.toIsRegular
  rw [hp.behind_eq]
  cases back with
  | nil =>
      have htail := isSpaceOrTab_codes (gap_tail hregular e.line)
      simpa using htail
  | cons q back =>
      obtain ⟨c, others, hothers, hc⟩ := exists_solid_behind hregular hp.pieces_eq hp.plain
      simp [hothers, hc]

/-- What comes before the gap of the sign ends with no blank, on the line and on the new line. -/
theorem SignPiece.solid_getLast (h : r.SpacesAssignments) {front back : List Piece} {p : Piece}
    (hp : SignPiece r e front back p) :
    (∀ c ∈ (codes (join front)).getLast?, isSpaceOrTab c = false) ∧
      ∀ c ∈ (codes (join (spread false front))).getLast?, isSpaceOrTab c = false := by
  have hregular := h.toIsRegular
  cases hfront : front with
  | nil => simp
  | cons q others =>
      rw [← hfront]
      have hsound : ∀ u ∈ front, u.IsSound := fun u hu =>
        isSound_of_mem hregular e.line u (by rw [hp.pieces_eq]; exact List.mem_append_left _ hu)
      obtain ⟨cells, x, hjoin, hx⟩ := exists_solid_before hregular hp.pieces_eq hp.plain
        (by rw [hfront]; exact List.cons_ne_nil q others)
      obtain ⟨cells', hspread⟩ := exists_concat_spread hsound hjoin false
      rw [hjoin, hspread]
      simpa using hx

/-- If no operator comes before the sign, no space is put before it for one. -/
theorem SignPiece.not_endsSetOff (h : r.SpacesAssignments) {front back : List Piece} {p : Piece}
    (hp : SignPiece r e front back p) (hfollows : e.followsOperator r.style = false) :
    endsSetOff false front = false := by
  have hregular := h.toIsRegular
  have hfront : ∀ u ∈ front, u.IsSound := fun u hu =>
    isSound_of_mem hregular e.line u (by rw [hp.pieces_eq]; exact List.mem_append_left _ hu)
  by_contra hends
  obtain ⟨cells, x, hcells, -, hchar⟩ := exists_last_of_endsSetOff hfront (by simpa using hends)
  have hgap := isSpaceOrTab_masked (isSound_of_split hregular hp.pieces_eq).gap
  have hsolid := isSpaceOrTab_of_not_isBlank (isBlank_of_mem_operatorChars _ hchar)
  have hnone : (maskOf p.gap).reverse.find? (fun c => !isSpaceOrTab c) = none := by
    refine List.find?_eq_none.mpr fun c hc => ?_
    obtain ⟨d, hd, rfl⟩ := List.mem_map.mp (List.mem_reverse.mp hc)
    simp [hgap d hd]
  rw [EqualsSign.followsOperator, hp.masked_eq, hcells, maskOf_append, maskOf_append,
    List.reverse_append, List.find?_append, hnone, Option.none_or, List.reverse_append,
    List.find?_append] at hfollows
  simp [maskOf, hsolid, hchar] at hfollows

/-- On the new line the sign has single spaces beside it if it is set off, and the blanks it has
otherwise. -/
theorem exists_line_of_equalsSign (h : r.SpacesAssignments)
    (hat : IsInCode r.style e.line e.before.length) :
    ∃ first rest, (r.normalize e.line).line = first ++ '=' :: rest ∧
      e.Spaced r.style first rest := by
  have hregular := h.toIsRegular
  obtain ⟨front, p, back, hp⟩ := exists_piece_of_equalsSign h hat
  have hsound := isSound_of_mem hregular e.line
  rw [hp.pieces_eq] at hsound
  simp only [List.forall_mem_append, List.forall_mem_cons] at hsound
  obtain ⟨hfront, hp', hback⟩ := hsound
  obtain ⟨hlast, hlast'⟩ := hp.solid_getLast h
  have hold : e.before = codes (join front) ++ codes p.gap := by
    rw [← hp.before_eq, codes_append]
  refine ⟨codes (join (spread false front)) ++ codes (p.newGap (endsSetOff false front)),
    codes (join (spread p.isSetOff back) ++ (r.reading e.line).tail) ++
      (r.style.splitComment e.line).2, ?_, ?_, ?_, fun hset => ?_, fun hkept hfollows => ?_, ?_⟩
  · rw [normalize_eq hregular, Reading.spaced, hp.pieces_eq, spread_append, spread_cons]
    simp [hp.cells_eq]
  · have hnil := Cell.solid_codes_of_isGap fun c hc => (hp'.gap c hc).1
    have hnil' := Cell.solid_codes_of_isGap fun c hc =>
      (hp'.newGap (endsSetOff false front) c hc).1
    rw [hold, Text.solid_append, Text.solid_append, hnil, hnil', solid_spread hfront]
  · rw [← hp.after_eq, codes_append, codes_append, Text.solid_append, Text.solid_append,
      Text.solid_append, Text.solid_append, solid_spread hback]
  · rw [← hp.isSetOff_eq] at hset
    rw [Piece.newGap, if_pos hset]
    have hspace := isSpaceOrTab_codes (List.forall_mem_singleton.mpr Cell.isGap_space)
    exact Text.rtakeWhile_append_gap hspace hlast'
  · rw [← hp.isSetOff_eq] at hkept
    have hgap := isSpaceOrTab_codes hp'.gap
    rw [hp.not_endsSetOff h hfollows, Piece.newGap_of_kept hkept hp.keyword, hold,
      Text.rtakeWhile_append_gap hgap hlast', Text.rtakeWhile_append_gap hgap hlast]
  · rw [hp.any_codeBehind h, ← hp.isSetOff_eq, ← hp.after_eq]
    cases hcons : back with
    | nil => simp
    | cons q others =>
        rw [hcons] at hp hback
        have hq := (List.forall_mem_cons.mp hback).1
        obtain ⟨hkept, hkeyword⟩ := hp.behind q others rfl
        obtain ⟨c, more, hmore, hc⟩ := exists_solid_behind hregular hp.pieces_eq hp.plain
        have hhead (t : Text) : ∀ d ∈ (codes q.cells ++ t).head?, isSpaceOrTab d = false := by
          rw [hmore]
          rintro _ ⟨⟩
          exact hc
        simp only [spread_cons, join_cons, codes_append, List.append_assoc]
        rw [Text.takeWhile_gap_append (isSpaceOrTab_codes (hq.newGap _)) (hhead _),
          Text.takeWhile_gap_append (isSpaceOrTab_codes hq.gap) (hhead _)]
        cases p.isSetOff <;> simp [Piece.newGap, callGap, hkept, hkeyword, Cell.space]

end Pieces

/-- Over all lists of lines, a single equals sign of Python with a value before it is set off by
single spaces if no bracket is open there on its own line, whatever brackets earlier lines leave
open. If it meets a neighbour, its line is reported. Any other single equals sign is left as it
stands and is no reason for a report. -/
theorem run_rule_equalsSign {lines : List Text} {i : Nat} (e : EqualsSign)
    (hat : IsInCode Python.spacing.style e.line e.before.length)
    (hline : lines[i]? = some e.line) :
    ∃ ds, Python.spacing.rule.run lines = .ok ds ∧
      (∀ d ∈ ds, d.line = i + 1 → ∃ first rest, d.replacement = some (first ++ '=' :: rest) ∧
        e.Spaced Python.spacing.style first rest) ∧
      ((Python.spacing.reading e.line).IsTightAt e.before.length ↔
        e.isSetOff Python.spacing.style = true ∧ e.meets Python.spacing.style = true) ∧
      (skips Python.spacing.style Python.spacing.skipped e.line = false →
        (Python.spacing.reading e.line).IsTightAt e.before.length → ∃ d ∈ ds, d.line = i + 1) := by
  have h := spacesAssignments_python
  have hregular := h.toIsRegular
  have hsound : Python.spacing.rule.IsSound :=
    OperatorSpacing.isSound fun token htoken => (hregular.operators token htoken).1
  obtain ⟨ds, hrun⟩ := hsound.runs lines
  refine ⟨ds, hrun, fun d hd hat' => ?_, isTightAt_equalsSign h hat, fun hskips htight => ?_⟩
  · obtain ⟨j, hj, hsnippet, hnew⟩ := exists_normalize_of_mem hrun hd
    obtain rfl : j = i := by omega
    obtain hsame : e.line = d.snippet := Option.some.inj (hline.symm.trans hsnippet)
    obtain ⟨first, rest, hnewLine, hspaced⟩ := exists_line_of_equalsSign h hat
    exact ⟨first, rest, by rw [hnew, ← hsame, hnewLine], hspaced⟩
  · obtain ⟨operator, others, hoperators⟩ := List.exists_cons_of_ne_nil
      ((operators_ne_nil_iff hregular e.line).mpr ⟨_, htight⟩)
    exact ⟨_, tightReport_mem hrun hline hskips hoperators, rfl⟩

def laterArgument : EqualsSign where
  before := "    a".toList
  after := "1)".toList
  alone := by
    rintro _ ⟨⟩
    decide
  single := by decide

theorem run_rule_equalsSign_laterArgument :
    laterArgument.line = "    a=1)".toList ∧
      IsInCode Python.spacing.style laterArgument.line laterArgument.before.length ∧
      ["f(".toList, laterArgument.line][1]? = some laterArgument.line ∧
      laterArgument.isSetOff Python.spacing.style = true ∧
      ∃ ds, Python.spacing.rule.run ["f(".toList, laterArgument.line] = .ok ds ∧
        (∃ d ∈ ds, d.line = 2) ∧
        ∀ d ∈ ds, d.line = 2 → ∃ first rest, d.replacement = some (first ++ '=' :: rest) ∧
          Text.solid first = ['a'] ∧ first.rtakeWhile isSpaceOrTab = [' '] ∧
          Text.solid rest = "1)".toList ∧ rest.takeWhile isSpaceOrTab = [' '] := by
  have hscan : Python.spacing.style.splitComment "    a=1)".toList = ("    a=1)".toList, []) ∧
      Python.spacing.style.literals "    a=1)".toList = [] := by
    decide +kernel
  have hstands : IsInCode Python.spacing.style laterArgument.line laterArgument.before.length := by
    refine ⟨?_, fun span hspan => ?_⟩
    · change _ < (Python.spacing.style.splitComment "    a=1)".toList).1.length
      rw [hscan.1]
      decide
    · change span ∈ Python.spacing.style.literals "    a=1)".toList at hspan
      rw [hscan.2] at hspan
      cases hspan
  have hset : laterArgument.isSetOff Python.spacing.style = true := by decide +kernel
  have hbehind : (laterArgument.codeBehind Python.spacing.style).any
      (fun c => !isSpaceOrTab c) = true := by
    decide +kernel
  have hline : ["f(".toList, laterArgument.line][1]? = some laterArgument.line := rfl
  obtain ⟨ds, hrun, hnew, htight, hreported⟩ := run_rule_equalsSign laterArgument hstands hline
  refine ⟨rfl, hstands, hline, hset, ds, hrun, ?_, fun d hd hat => ?_⟩
  · exact hreported (by decide +kernel) (htight.mpr ⟨hset, by decide +kernel⟩)
  · obtain ⟨first, rest, hline, hspaced⟩ := hnew d hd hat
    refine ⟨first, rest, hline, hspaced.solid_first, hspaced.before_setOff hset,
      hspaced.solid_rest, ?_⟩
    rw [hspaced.behind, hset, hbehind]
    rfl

end OperatorSpacing

end LineLint
