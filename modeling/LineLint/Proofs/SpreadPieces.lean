import LineLint.Proofs.LinePieces

/-!
# Pieces with their new gaps

Spacing a line gives each of its pieces another gap and changes nothing else. The new gap is told by
the piece and by the one before it: a space beside an operator that is set off, a further space
before the parenthesis of a call, and the old gap everywhere else.
-/

namespace LineLint

open Cell (codes)

def Cell.space : Cell := ⟨' ', ' ', false, none⟩

namespace OperatorSpacing

def callGap (keyword : Option Text) : List Cell := if keyword.isSome then [Cell.space] else []

/-- The gap of a piece on the spaced line; `behind` tells whether the piece before it is set off. -/
def Piece.newGap (behind : Bool) (p : Piece) : List Cell :=
  if p.isSetOff then [Cell.space]
  else (if behind then [Cell.space] else p.gap) ++ callGap p.keyword

def spread (behind : Bool) : List Piece → List Piece
  | [] => []
  | p :: ps => { p with gap := p.newGap behind } :: spread p.isSetOff ps

@[simp] theorem spread_nil (behind : Bool) : spread behind [] = [] := rfl

@[simp] theorem spread_cons (behind : Bool) (p : Piece) (ps : List Piece) :
    spread behind (p :: ps) = { p with gap := p.newGap behind } :: spread p.isSetOff ps := rfl

def endsSetOff (behind : Bool) (ps : List Piece) : Bool :=
  (ps.getLast?.map (·.isSetOff)).getD behind

@[simp] theorem endsSetOff_nil (behind : Bool) : endsSetOff behind [] = behind := rfl

@[simp] theorem endsSetOff_cons (behind : Bool) (p : Piece) (ps : List Piece) :
    endsSetOff behind (p :: ps) = endsSetOff p.isSetOff ps := by
  rw [endsSetOff, endsSetOff, List.getLast?_cons]
  cases ps.getLast? <;> rfl

@[simp] theorem endsSetOff_concat (behind : Bool) (ps : List Piece) (p : Piece) :
    endsSetOff behind (ps ++ [p]) = p.isSetOff := by
  rw [endsSetOff, List.getLast?_concat]
  rfl

theorem exists_concat_of_endsSetOff {ps : List Piece} (h : endsSetOff false ps = true) :
    ∃ front p, ps = front ++ [p] ∧ p.isSetOff = true := by
  rcases List.eq_nil_or_concat ps with rfl | ⟨front, p, rfl⟩
  · cases h
  · rw [List.concat_eq_append, endsSetOff_concat] at h
    exact ⟨front, p, List.concat_eq_append, h⟩

theorem endsSetOff_append (behind : Bool) (ps qs : List Piece) :
    endsSetOff behind (ps ++ qs) = endsSetOff (endsSetOff behind ps) qs := by
  induction ps generalizing behind with
  | nil => rfl
  | cons p ps ih => rw [List.cons_append, endsSetOff_cons, ih, endsSetOff_cons]

theorem spread_append (behind : Bool) (ps qs : List Piece) :
    spread behind (ps ++ qs) = spread behind ps ++ spread (endsSetOff behind ps) qs := by
  induction ps generalizing behind with
  | nil => rfl
  | cons p ps ih => simp [ih]

theorem exists_split_of_spread {behind : Bool} {ps front back : List Piece} {p : Piece}
    (h : spread behind ps = front ++ p :: back) :
    ∃ front' p' back', ps = front' ++ p' :: back' ∧ front = spread behind front' ∧
      p = { p' with gap := p'.newGap (endsSetOff behind front') } ∧
      back = spread p'.isSetOff back' := by
  induction ps generalizing behind front with
  | nil => simp at h
  | cons q ps ih =>
      cases front with
      | nil =>
          obtain ⟨rfl, rfl⟩ := List.cons.inj h
          exact ⟨[], q, ps, rfl, rfl, rfl, rfl⟩
      | cons e front =>
          obtain ⟨rfl, hrest⟩ := List.cons.inj h
          obtain ⟨front', p', back', rfl, rfl, rfl, rfl⟩ := ih hrest
          exact ⟨q :: front', p', back', rfl, rfl, by rw [endsSetOff_cons], rfl⟩

theorem spread_eq_self {behind : Bool} {ps : List Piece}
    (h : ∀ front p back, ps = front ++ p :: back → p.newGap (endsSetOff behind front) = p.gap) :
    spread behind ps = ps := by
  induction ps generalizing behind with
  | nil => rfl
  | cons p ps ih =>
      have hp : p.newGap behind = p.gap := h [] p ps rfl
      have hps : spread p.isSetOff ps = ps := ih fun front q back hsplit => by
        have hq := h (p :: front) q back (by rw [hsplit]; rfl)
        rwa [endsSetOff_cons] at hq
      rw [spread_cons, hp, hps]

namespace Reading

def spaced (d : Reading) : List Cell := join (spread false d.pieces) ++ d.tail

def tightOperators (d : Reading) : List Text :=
  (d.pieces.filter (·.isTight)).map fun p => codes p.cells

def calls (d : Reading) : List Text := d.pieces.filterMap (·.keyword)

variable {gap : List Cell} {d : Reading}

@[simp] theorem tightOperators_consGap : (d.consGap gap).tightOperators = d.tightOperators := by
  rcases d with ⟨_ | ⟨p, ps⟩, tail⟩
  · rfl
  · simp only [tightOperators, consGap, List.filter_cons]
    split_ifs <;> rfl

@[simp] theorem calls_consGap : (d.consGap gap).calls = d.calls := by
  rcases d with ⟨_ | ⟨p, ps⟩, tail⟩ <;> rfl

end Reading

section Rebuilding

variable {s result : Rebuilt} {cell : Cell} {token : Text} {part gap : List Cell} {d : Reading}

theorem text_startCell (s : Rebuilt) (cell : Cell) :
    (startCell s cell).text = s.text ++ codes (callGap cell.keyword) := by
  unfold startCell
  cases cell.keyword with
  | none => exact (List.append_nil _).symm
  | some keyword => exact text_push s [' ']

theorem keptText_startCell (s : Rebuilt) (cell : Cell) :
    keptText (startCell s cell) = keptText s := by
  unfold startCell
  cases cell.keyword with
  | none => rfl
  | some keyword => exact keptText_push_of_isSpaceOrTab (s := s) (c := ' ') rfl

theorem keywords_startCell (s : Rebuilt) (cell : Cell) :
    (startCell s cell).keywords = s.keywords ++ cell.keyword.toList := by
  unfold startCell
  cases cell.keyword with
  | none => exact (List.append_nil _).symm
  | some keyword => rfl

theorem operators_startCell (s : Rebuilt) (cell : Cell) :
    (startCell s cell).operators = s.operators := by
  unfold startCell
  cases cell.keyword <;> rfl

/-- A rebuild that has come to a reading gives the reading with its new gaps. If the reading starts
with an operator that is set off, the blanks at the end of what was put out are taken back. -/
structure Lays (s : Rebuilt) (d : Reading) (result : Rebuilt) : Prop where
  text_eq : result.text = (if d.startsSetOff then keptText s else s.text) ++ codes d.spaced
  operators_eq : result.operators = s.operators ++ d.tightOperators
  keywords_eq : result.keywords = s.keywords ++ d.calls

theorem lays_nil {tail : List Cell} (htext : result.text = s.text ++ codes tail)
    (hoperators : result.operators = s.operators) (hkeywords : result.keywords = s.keywords) :
    Lays s ⟨[], tail⟩ result :=
  ⟨htext, by rw [hoperators]; exact (List.append_nil _).symm,
    by rw [hkeywords]; exact (List.append_nil _).symm⟩

/-- A gap is kept, unless an operator that is set off follows it. -/
theorem lays_gap (hcell : cell.IsGap) (h : Lays (s.push [cell.code]) d result) :
    Lays s (d.consGap [cell]) result := by
  refine ⟨?_, ?_, ?_⟩
  · rw [h.text_eq, Reading.startsSetOff_consGap, keptText_push_of_isSpaceOrTab hcell.blank,
      text_push]
    rcases d with ⟨_ | ⟨p, ps⟩, tail⟩
    · simp [Reading.startsSetOff, Reading.spaced, Reading.consGap]
    · cases hset : p.isSetOff <;>
        simp [Reading.startsSetOff, Reading.spaced, Reading.consGap, Piece.newGap, Piece.keyword,
          hset]
  · rw [h.operators_eq, Reading.tightOperators_consGap]
    rfl
  · rw [h.keywords_eq, Reading.calls_consGap]
    rfl

/-- What is put out behind what came before it, with the further space of a call. -/
theorem lays_put (hpart : part.head? = some cell)
    (hkept : (if d.startsSetOff then keptText ((startCell s cell).push token)
      else ((startCell s cell).push token).text) =
        s.text ++ codes (callGap cell.keyword) ++ codes part)
    (h : Lays ((startCell s cell).push token) d result) :
    Lays s (d.cons { cells := part }) result := by
  refine ⟨?_, ?_, ?_⟩
  · rw [h.text_eq, hkept]
    simp [Reading.startsSetOff, Reading.spaced, Reading.cons, Piece.newGap, Piece.keyword, hpart]
  · rw [h.operators_eq]
    exact congrArg (· ++ d.tightOperators) (operators_startCell s cell)
  · rw [h.keywords_eq]
    change (startCell s cell).keywords ++ _ = _
    rw [keywords_startCell]
    cases hkeyword : cell.keyword <;>
      simp [Reading.calls, Reading.cons, Piece.keyword, hpart, hkeyword]

theorem lays_single (hnext : isSpaceOrTab cell.code = true → d.startsSetOff = false)
    (h : Lays ((startCell s cell).push [cell.code]) d result) :
    Lays s (d.cons { cells := [cell] }) result := by
  refine lays_put rfl ?_ h
  rw [← text_startCell]
  split_ifs with hset
  · refine keptText_push_of_isMore fun c hc => ?_
    obtain ⟨rfl, -⟩ := List.cons.inj hc
    by_contra hblank
    rw [hnext (by simpa using hblank)] at hset
    cases hset
  · exact text_push _ _

theorem lays_kept (hpart : part.head? = some cell) (htoken : IsToken token part)
    (h : Lays ((startCell s cell).push token) d result) :
    Lays s (d.cons { cells := part }) result := by
  refine lays_put hpart ?_ h
  rw [← text_startCell, htoken.codes_eq,
    keptText_push_of_isMore (Continues.isMore_of_isToken htoken), text_push, ite_self]

/-- What has been put out when an operator is to be set off. -/
structure Opens (s : Rebuilt) (cell : Cell) (token : Text) (isTight : Bool) (s' : Rebuilt) :
    Prop where
  text_eq : s'.text = keptText s
  operators_eq : s'.operators = s.operators ++ if isTight then [token] else []
  keywords_eq : s'.keywords = s.keywords ++ cell.keyword.toList

variable {s' : Rebuilt} {isTight : Bool}

/-- An operator that is set off, with a space behind it if the reading goes on. -/
theorem lays_setOff (hpart : part.head? = some cell) (htoken : IsToken token part)
    (hs : Opens s cell token isTight s')
    (htext : result.text = s'.text ++ (' ' :: token) ++
      codes (join (spread true d.pieces) ++ d.tail))
    (hoperators : result.operators = s'.operators ++ d.tightOperators)
    (hkeywords : result.keywords = s'.keywords ++ d.calls) :
    Lays s (d.cons { cells := part, isSetOff := true, isTight }) result := by
  refine ⟨?_, ?_, ?_⟩
  · rw [htext, hs.text_eq]
    simp [Reading.startsSetOff, Reading.spaced, Reading.cons, Piece.newGap, Cell.space,
      htoken.codes_eq]
  · rw [hoperators, hs.operators_eq]
    cases isTight <;> simp [Reading.tightOperators, Reading.cons, htoken.codes_eq]
  · rw [hkeywords, hs.keywords_eq]
    cases hkeyword : cell.keyword <;>
      simp [Reading.calls, Reading.cons, Piece.keyword, hpart, hkeyword]

theorem lays_setOff_last (hpart : part.head? = some cell) (htoken : IsToken token part)
    (hs : Opens s cell token isTight s') (h : Lays (s'.push (' ' :: token)) ⟨[], gap⟩ result) :
    Lays s (Reading.cons { cells := part, isSetOff := true, isTight } ⟨[], gap⟩) result :=
  lays_setOff hpart htoken hs
    (h.text_eq.trans (congrArg (· ++ codes gap) (text_push s' (' ' :: token)))) h.operators_eq
    h.keywords_eq

theorem lays_setOff_more (hpart : part.head? = some cell) (htoken : IsToken token part)
    (hs : Opens s cell token isTight s') (hstart : d.startsSetOff = false)
    (hhead : ∃ p ∈ d.pieces.head?, p.gap = [])
    (h : Lays (s'.push (' ' :: token ++ [' '])) d result) :
    Lays s ((d.consGap gap).cons { cells := part, isSetOff := true, isTight }) result := by
  refine lays_setOff hpart htoken hs ?_ ?_ ?_
  · rw [h.text_eq, hstart, if_neg Bool.false_ne_true, text_push]
    rcases d with ⟨_ | ⟨p, ps⟩, tail⟩
    · simp at hhead
    · have hset : p.isSetOff = false := hstart
      have hgap : p.gap = [] := by simpa using hhead
      simp [Reading.spaced, Reading.consGap, Piece.newGap, Piece.keyword, Cell.space, hset, hgap]
  · rw [h.operators_eq, Reading.tightOperators_consGap]
    rfl
  · rw [h.keywords_eq, Reading.calls_consGap]
    rfl

end Rebuilding

section Run

variable {r : OperatorSpacing} {tokens : List Text} {token reversed : Text} {depth : Nat}
  {cells passed rest part after : List Cell} {cell : Cell} {s s' result : Rebuilt}
  {isTight : Bool}

/-- Where an operand is called for, no operator is set off. -/
theorem startsSetOff_read (hoperand : expectsOperand reversed = true)
    (hmasked : ∀ c ∈ cells, c.IsGap → c.masked = c.code) :
    (r.read tokens reversed depth cells).startsSetOff = false := by
  fun_induction read r tokens reversed depth cells with
  | case1 => rfl
  | case2 => rfl
  | case3 reversed depth cell rest hprotected depth' _ _ hblank =>
      rename_i ih
      rw [Reading.startsSetOff_consGap]
      refine ih ?_ fun c hc => hmasked c (List.mem_cons_of_mem _ hc)
      have hgap : cell.IsGap := ⟨by simpa using hprotected, hblank⟩
      have hspace : isBlank cell.masked = true := by
        rw [hmasked cell List.mem_cons_self hgap]
        exact Text.isBlank_of_isSpaceOrTab hblank
      rwa [expectsOperand, List.dropWhile_cons_of_pos hspace]
  | case4 => rfl
  | case5 reversed depth cell rest hprotected depth' operator hat after isSetOff =>
      have hkept : isSetOff = false := by simp [isSetOff, setsOff, keeps, hoperand]
      exact hkept

theorem startsSetOff_read_of_protected (h : ∀ c ∈ cells.head?, c.isProtected = true) :
    (r.read tokens reversed depth cells).startsSetOff = false := by
  cases cells with
  | nil =>
      rw [read_nil]
      rfl
  | cons cell rest =>
      rw [read_protected (h cell rfl)]
      rfl

theorem exists_head?_read (hcell : ¬cell.IsGap) :
    ∃ p ∈ (r.read tokens reversed depth (cell :: rest)).pieces.head?, p.gap = [] := by
  by_cases hprotected : cell.isProtected = true
  · rw [read_protected hprotected]
    exact ⟨_, rfl, rfl⟩
  · rw [Bool.not_eq_true] at hprotected
    cases hat : operatorAt? tokens (cell :: rest) with
    | none =>
        rw [read_single hprotected hat (by simpa using fun hblank => hcell ⟨hprotected, hblank⟩)]
        exact ⟨_, rfl, rfl⟩
    | some operator =>
        rw [read_token hprotected hat]
        exact ⟨_, rfl, rfl⟩

theorem IsSpaceable.masked_eq_of_isGap (h : IsSpaceable tokens (passed ++ cells)) :
    ∀ c ∈ cells, c.IsGap → c.masked = c.code :=
  fun c hc hgap => h.masked_eq c (List.mem_append_right _ hc) hgap.notProtected

theorem setsOff_eq_not {unary : Bool} {after : List Cell}
    (h : (r.keeps token reversed depth after || (r.table.unaryCapable.contains token &&
      !(!reversed.head?.any isBlank && after.head?.any fun next => !isBlank next.masked))) =
        unary) : r.setsOff token reversed depth after = !unary := by
  rw [setsOff, ← h]
  rfl

theorem IsSpaceable.startCell_of_isGap (h : IsSpaceable tokens (passed ++ cell :: rest))
    (hgap : cell.IsGap) (s : Rebuilt) : startCell s cell = s := by
  have hkeyword : cell.keyword = none := by
    by_contra hsome
    have hmark := (h.keyword passed cell rest rfl (Option.isSome_iff_ne_none.mpr hsome)).1
    have hshows := hmark.notBlank
    rw [Text.isBlank_of_isSpaceOrTab hgap.blank] at hshows
    cases hshows
  simp only [startCell, hkeyword]

theorem IsSpaceable.takeWhile_isGap
    (h : IsSpaceable tokens (passed ++ part ++ after)) (htoken : IsToken token part) :
    ∀ c ∈ after.takeWhile fun next => isSpaceOrTab next.masked, c.IsGap ∧ c.masked = c.code := by
  have hafter : (after.takeWhile fun next => isSpaceOrTab next.masked) ++
      (after.dropWhile fun next => isSpaceOrTab next.masked) = after :=
    List.takeWhile_append_dropWhile
  intro c hc
  have hgap : c.IsGap := by
    rw [← hafter, List.append_assoc] at h
    refine h.isGap htoken (fun d hd => ?_) c hc
    have hblank := List.mem_takeWhile_imp hd
    exact hblank
  refine ⟨hgap, h.masked_eq c ?_ hgap.notProtected⟩
  exact List.mem_append_right _ ((List.takeWhile_prefix _).mem hc)

theorem expectsOperand_of_token (hoperators : AreOperators tokens) (hmem : token ∈ tokens)
    {blanks : Text} (hblanks : ∀ c ∈ blanks, isBlank c = true) :
    expectsOperand (blanks ++ (token.reverse ++ reversed)) = true := by
  obtain ⟨hne, hchars⟩ := hoperators token hmem
  obtain ⟨front, last, rfl⟩ := (List.eq_nil_or_concat token).resolve_left hne
  have hlast : last ∈ operatorChars := hchars last (by simp)
  have hdrop : (blanks ++ ((front.concat last).reverse ++ reversed)).dropWhile isBlank =
      last :: (front.reverse ++ reversed) := by
    rw [List.dropWhile_append_of_pos hblanks, List.concat_eq_append, List.reverse_concat]
    exact List.dropWhile_cons_of_neg (by simp [isBlank_of_mem_operatorChars last hlast])
  rw [expectsOperand, hdrop]
  simp [mem_unaryContext_of_mem_operatorChars last hlast]

theorem read_of_forall_gap (hplain : ArePlain tokens) {gap : List Cell}
    (hgap : ∀ c ∈ gap, c.IsGap ∧ c.masked = c.code) :
    r.read tokens reversed depth gap = ⟨[], gap⟩ := by
  have hread : r.read tokens reversed depth (gap ++ []) =
      (r.read tokens ((gap.map (·.masked)).reverse ++ reversed) depth []).consGap gap :=
    read_gaps hplain hgap
  rwa [List.append_nil, read_nil, Reading.consGap, List.append_nil] at hread

theorem not_isGap_of_dropWhile {after others : List Cell} {next : Cell}
    (hmasked : ∀ c ∈ after, c.IsGap → c.masked = c.code)
    (hdrop : (after.dropWhile fun c => isSpaceOrTab c.masked) = next :: others) :
    ¬next.IsGap := by
  intro hgap
  have hnot := List.head?_dropWhile_not (fun c : Cell => isSpaceOrTab c.masked) after
  have hmem : next ∈ after := by
    apply (List.dropWhile_sublist fun c : Cell => isSpaceOrTab c.masked).mem
    rw [hdrop]
    exact List.mem_cons_self
  rw [hdrop, List.head?_cons] at hnot
  simp only [hmasked next hmem hgap, hgap.blank, Bool.true_eq_false] at hnot

theorem opens_of_startCell (s : Rebuilt) (cell : Cell) (token : Text) (isTight : Bool) :
    Opens s cell token isTight
      { startCell s cell with
        chunks := Rebuilt.dropBlankChunks (startCell s cell).chunks
        operators :=
          if isTight then (startCell s cell).operators ++ [token]
          else (startCell s cell).operators } := by
  refine ⟨keptText_startCell s cell, ?_, keywords_startCell s cell⟩
  rw [← operators_startCell s cell]
  cases isTight
  · exact (List.append_nil _).symm
  · rfl

/-- An operator is read as a piece that is kept, or set off and perhaps too tight. -/
theorem read_kept (hcell : cell.isProtected = false)
    (hat : operatorAt? tokens (cell :: rest) = some token)
    (hkept : r.setsOff token reversed (depthAfter depth cell.masked)
      (rest.drop (token.length - 1)) = false) :
    r.read tokens reversed depth (cell :: rest) =
      (r.read tokens (token.reverse ++ reversed) (depthAfter depth cell.masked)
        (rest.drop (token.length - 1))).cons { cells := (cell :: rest).take token.length } := by
  have hread : r.read tokens reversed depth (cell :: rest) = _ := read_token hcell hat
  simp only [hkept, Bool.false_and] at hread
  exact hread

theorem read_setOff (hcell : cell.isProtected = false)
    (hat : operatorAt? tokens (cell :: rest) = some token)
    (hset : r.setsOff token reversed (depthAfter depth cell.masked)
      (rest.drop (token.length - 1)) = true) :
    r.read tokens reversed depth (cell :: rest) =
      (r.read tokens (token.reverse ++ reversed) (depthAfter depth cell.masked)
        (rest.drop (token.length - 1))).cons
          { cells := (cell :: rest).take token.length
            isSetOff := true
            isTight := tightBefore reversed || tightAfter (rest.drop (token.length - 1)) } := by
  have hread : r.read tokens reversed depth (cell :: rest) = _ := read_token hcell hat
  simp only [hset, Bool.true_and] at hread
  exact hread

theorem head?_take_of_isToken (h : IsToken token ((cell :: rest).take token.length)) :
    ((cell :: rest).take token.length).head? = some cell := by
  have hlength : token.length ≠ 0 := by
    intro hzero
    rw [hzero, List.take_zero] at h
    exact h.ne_nil rfl
  rw [List.head?_take, if_neg hlength]
  rfl

/-- Blanks behind an operator that is set off end the reading. -/
theorem lays_read_blanks (hoperators : AreOperators tokens)
    (hcells : IsSpaceable tokens (passed ++ part ++ after)) (htoken : IsToken token part)
    (hpart : part.head? = some cell) (hs : Opens s cell token isTight s')
    (hblanks : (after.dropWhile fun next => isSpaceOrTab next.masked) = [])
    (h : Lays (s'.push (' ' :: token)) (r.read tokens reversed depth after) result) :
    Lays s ((r.read tokens reversed depth after).cons
      { cells := part, isSetOff := true, isTight }) result := by
  have hafter : (after.takeWhile fun next => isSpaceOrTab next.masked) = after :=
    List.takeWhile_eq_self_iff.mpr (List.dropWhile_eq_nil_iff.mp hblanks)
  have hgap := hcells.takeWhile_isGap htoken
  rw [hafter] at hgap
  have hread : r.read tokens reversed depth after = ⟨[], after⟩ :=
    read_of_forall_gap hoperators.arePlain hgap
  rw [hread] at h ⊢
  exact lays_setOff_last hpart htoken hs h

/-- Behind an operator that is set off the blanks give way to one space, and what follows them is
read as an operand. -/
theorem lays_read_following (hoperators : AreOperators tokens) (hmem : token ∈ tokens)
    (hcells : IsSpaceable tokens (passed ++ part ++ after)) (htoken : IsToken token part)
    (hpart : part.head? = some cell) (hs : Opens s cell token isTight s')
    {blanks following : List Cell}
    (hblanks : (after.takeWhile fun next => isSpaceOrTab next.masked) = blanks)
    (hfollowing : (after.dropWhile fun next => isSpaceOrTab next.masked) = following)
    (hne : following ≠ [])
    (h : Lays (s'.push (' ' :: token ++ [' ']))
      (r.read tokens ((blanks.map (·.masked)).reverse ++ (token.reverse ++ reversed)) depth
        following) result) :
    Lays s ((r.read tokens (token.reverse ++ reversed) depth after).cons
      { cells := part, isSetOff := true, isTight }) result := by
  have hafter : blanks ++ following = after := by
    rw [← hblanks, ← hfollowing, List.takeWhile_append_dropWhile]
  have hgap : ∀ c ∈ blanks, c.IsGap ∧ c.masked = c.code := by
    rw [← hblanks]
    exact hcells.takeWhile_isGap htoken
  have hmasked : ∀ c ∈ after, c.IsGap → c.masked = c.code := hcells.masked_eq_of_isGap
  have hoperand : expectsOperand
      ((blanks.map (·.masked)).reverse ++ (token.reverse ++ reversed)) = true := by
    refine expectsOperand_of_token hoperators hmem fun c hc => ?_
    obtain ⟨d, hd, rfl⟩ := List.mem_map.mp (List.mem_reverse.mp hc)
    rw [(hgap d hd).2]
    exact Text.isBlank_of_isSpaceOrTab (hgap d hd).1.blank
  obtain ⟨next, others, rfl⟩ := List.exists_cons_of_ne_nil hne
  have hnext : ¬next.IsGap := not_isGap_of_dropWhile hmasked hfollowing
  have hread : r.read tokens (token.reverse ++ reversed) depth after =
      (r.read tokens ((blanks.map (·.masked)).reverse ++ (token.reverse ++ reversed)) depth
        (next :: others)).consGap blanks := by
    rw [← hafter, read_gaps hoperators.arePlain hgap]
  rw [hread]
  refine lays_setOff_more hpart htoken hs (startsSetOff_read hoperand fun c hc => ?_)
    (exists_head?_read hnext) h
  exact hmasked c (hafter ▸ List.mem_append_right blanks hc)

/-- Rebuilding the cells of a line gives its reading with the new gaps. -/
theorem lays_rebuild (hoperators : AreOperators tokens)
    (hcells : IsSpaceable tokens (passed ++ cells))
    (hreversed : reversed = (passed.map (·.masked)).reverse) :
    Lays s (r.read tokens reversed depth cells) (r.rebuild tokens reversed depth s cells) := by
  fun_induction rebuild r tokens reversed depth s cells generalizing passed with
  | case1 reversed depth s =>
      rw [read_nil]
      exact lays_nil (List.append_nil _).symm rfl rfl
  | case2 reversed depth s cell rest s' hprotected =>
      rename_i ih
      have hgone : IsSpaceable tokens (passed ++ [cell] ++ rest) := by simpa using hcells
      rw [read_protected hprotected]
      refine lays_single (fun hblank => startsSetOff_read_of_protected ?_)
        (ih hgone (by simp [hreversed]))
      exact hcells.isProtected_of_mem_head? hprotected hblank
  | case3 reversed depth s cell rest s' hprotected depth' hnone =>
      rename_i ih
      have hgone : IsSpaceable tokens (passed ++ [cell] ++ rest) := by simpa using hcells
      have hrest := ih hgone (by simp [hreversed])
      rw [Bool.not_eq_true] at hprotected
      by_cases hblank : isSpaceOrTab cell.code = true
      · have hgap : cell.IsGap := ⟨hprotected, hblank⟩
        have hmasked := hcells.masked_eq_of_isGap cell List.mem_cons_self hgap
        have hsame : depth' = depth :=
          depthAfter_of_isSpaceOrTab (hmasked.symm ▸ hblank)
        have hstart : s' = s := hcells.startCell_of_isGap hgap s
        rw [hsame, hstart] at hrest ⊢
        rw [read_gap hoperators.arePlain hgap hmasked]
        exact lays_gap hgap hrest
      · rw [read_single hprotected hnone (by simpa using hblank)]
        exact lays_single (fun h => absurd h hblank) hrest
  | case4 reversed depth s cell rest s' hprotected depth' operator hat token after =>
      rename_i hkept ih
      obtain ⟨htoken, hsplit, hgone⟩ :=
        split_of_operatorAt? hoperators.arePlain hcells hprotected hat
      have hrest := ih hgone (reverse_map_masked htoken hreversed)
      rw [Bool.not_eq_true] at hprotected
      have hcode : token.map (·.code) = operator := htoken.codes_eq
      have hset : r.setsOff operator reversed depth' after = false := setsOff_eq_not hkept
      rw [hcode] at hrest ⊢
      rw [read_kept hprotected hat hset]
      exact lays_kept (head?_take_of_isToken htoken) htoken hrest
  | case5 reversed depth s cell rest s' hprotected depth' operator hat after =>
      rename_i hspaced s'' _ hempty ih
      obtain ⟨htoken, -, hgone⟩ := split_of_operatorAt? hoperators.arePlain hcells hprotected hat
      have hrest := ih hgone (reverse_map_masked htoken hreversed)
      rw [Bool.not_eq_true] at hprotected hspaced
      have hset : r.setsOff operator reversed depth' after = true := setsOff_eq_not hspaced
      rw [read_setOff hprotected hat hset]
      exact lays_read_blanks hoperators hgone htoken (head?_take_of_isToken htoken)
        (opens_of_startCell s cell operator _) (List.isEmpty_iff.mp hempty) hrest
  | case6 reversed depth s cell rest s' hprotected depth' operator hat after =>
      rename_i hspaced s'' blanks following hempty ih
      obtain ⟨htoken, -, hgone⟩ := split_of_operatorAt? hoperators.arePlain hcells hprotected hat
      have hmem : operator ∈ tokens := List.mem_of_find?_eq_some hat
      have hafter : blanks ++ following = after := List.takeWhile_append_dropWhile
      have hbehind := hgone
      change IsSpaceable tokens (_ ++ after) at hbehind
      rw [← hafter, ← List.append_assoc] at hbehind
      have hrest := ih hbehind (by
        rw [List.map_append, List.reverse_append, ← reverse_map_masked htoken hreversed])
      rw [Bool.not_eq_true] at hprotected hspaced
      have hset : r.setsOff operator reversed depth' after = true := setsOff_eq_not hspaced
      rw [read_setOff hprotected hat hset]
      exact lays_read_following hoperators hmem hgone htoken (head?_take_of_isToken htoken)
        (opens_of_startCell s cell operator _) rfl rfl (mt List.isEmpty_iff.mpr hempty) hrest

end Run

end OperatorSpacing

end LineLint
