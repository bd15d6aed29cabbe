import LineLint.Proofs.SpacedOperators

/-!
# The pieces of a line

For spacing, a line is read as pieces: single characters and operators, each with the blanks before
it. Whether an operator is set off by spaces is told by the place where it stands, that is by the
text before it and behind it, and not by what becomes of the other operators.
-/

namespace LineLint

open Cell (codes)

namespace OperatorSpacing

def operatorChars : Text := "=:?!&|+-*/%<>^".toList

def AreOperators (tokens : List Text) : Prop :=
  ∀ token ∈ tokens, token ≠ [] ∧ ∀ c ∈ token, c ∈ operatorChars

/-- What a check of the operator characters, one by one, has found to hold of them. -/
theorem of_mem_operatorChars {q : Char → Prop} [DecidablePred q]
    (h : operatorChars.all (fun c => decide (q c)) = true) : ∀ c ∈ operatorChars, q c := by
  simpa using h

theorem isBlank_of_mem_operatorChars : ∀ c ∈ operatorChars, isBlank c = false :=
  of_mem_operatorChars (by decide)

theorem mem_unaryContext_of_mem_operatorChars : ∀ c ∈ operatorChars, c ∈ unaryContext :=
  of_mem_operatorChars (by decide)

theorem depthAfter_of_mem_operatorChars (depth : Nat) :
    ∀ c ∈ operatorChars, depthAfter depth c = depth := by
  intro c hc
  have hbrackets : ∀ c ∈ operatorChars,
      ['(', '[', '{'].contains c = false ∧ [')', ']', '}'].contains c = false :=
    of_mem_operatorChars (by decide)
  obtain ⟨hopening, hclosing⟩ := hbrackets c hc
  simp only [depthAfter, hopening, hclosing, Bool.false_eq_true, if_false]

theorem AreOperators.arePlain {tokens : List Text} (h : AreOperators tokens) : ArePlain tokens :=
  fun token htoken =>
    ⟨(h token htoken).1, fun c hc => isBlank_of_mem_operatorChars c ((h token htoken).2 c hc)⟩

/-- A character or an operator of a line, with the blanks before it. -/
structure Piece where
  gap : List Cell := []
  cells : List Cell
  /-- Whether it is an operator that is set off by spaces. -/
  isSetOff : Bool := false
  /-- Whether it is set off because it stands too close to its neighbours. -/
  isTight : Bool := false

def Piece.keyword (p : Piece) : Option Text := p.cells.head?.bind (·.keyword)

def join (ps : List Piece) : List Cell := ps.flatMap fun p => p.gap ++ p.cells

@[simp] theorem join_nil : join [] = [] := rfl

@[simp] theorem join_cons (p : Piece) (ps : List Piece) :
    join (p :: ps) = p.gap ++ p.cells ++ join ps := rfl

@[simp] theorem join_append (ps qs : List Piece) : join (ps ++ qs) = join ps ++ join qs :=
  List.flatMap_append

/-- A line as its pieces, and the blanks behind the last of them. -/
structure Reading where
  pieces : List Piece
  tail : List Cell

namespace Reading

def cells (d : Reading) : List Cell := join d.pieces ++ d.tail

def cons (p : Piece) (d : Reading) : Reading := { d with pieces := p :: d.pieces }

def consGap (gap : List Cell) : Reading → Reading
  | ⟨[], tail⟩ => ⟨[], gap ++ tail⟩
  | ⟨p :: ps, tail⟩ => ⟨{ p with gap := gap ++ p.gap } :: ps, tail⟩

def startsSetOff (d : Reading) : Bool := d.pieces.head?.any (·.isSetOff)

variable {p : Piece} {gap more : List Cell} {d : Reading}

@[simp] theorem cells_cons : (d.cons p).cells = p.gap ++ p.cells ++ d.cells := by
  simp [cells, cons]

@[simp] theorem cells_consGap : (d.consGap gap).cells = gap ++ d.cells := by
  rcases d with ⟨_ | ⟨p, ps⟩, tail⟩ <;> simp [cells, consGap]

@[simp] theorem startsSetOff_cons : (d.cons p).startsSetOff = p.isSetOff := rfl

@[simp] theorem startsSetOff_consGap : (d.consGap gap).startsSetOff = d.startsSetOff := by
  rcases d with ⟨_ | ⟨p, ps⟩, tail⟩ <;> rfl

theorem consGap_consGap : (d.consGap more).consGap gap = d.consGap (gap ++ more) := by
  rcases d with ⟨_ | ⟨p, ps⟩, tail⟩ <;> simp [consGap]

end Reading

/-- Whether an operator meets what comes before it; `reversed` is the text from its end back. -/
def tightBefore (reversed : Text) : Bool := !reversed.head?.any isBlank

def tightAfter (after : List Cell) : Bool := after.head?.any fun next => !isBlank next.masked

/-- Whether an operator is set off by spaces, from the text and the brackets before it and the
cells behind it. -/
def setsOff (r : OperatorSpacing) (operator reversed : Text) (depth : Nat) (after : List Cell) :
    Bool :=
  !(r.keeps operator reversed depth after ||
    (r.table.unaryCapable.contains operator && !(tightBefore reversed && tightAfter after)))

/-- Reads the cells of a line; `reversed` and `depth` tell of the text before them. -/
def read (r : OperatorSpacing) (tokens : List Text) (reversed : Text) (depth : Nat)
    (cells : List Cell) : Reading :=
  match cells with
  | [] => ⟨[], []⟩
  | cell :: rest =>
      if cell.isProtected then
        (read r tokens (cell.masked :: reversed) depth rest).cons { cells := [cell] }
      else
        let depth := depthAfter depth cell.masked
        match operatorAt? tokens (cell :: rest) with
        | none =>
            let behind := read r tokens (cell.masked :: reversed) depth rest
            if isSpaceOrTab cell.code then behind.consGap [cell]
            else behind.cons { cells := [cell] }
        | some operator =>
            let after := rest.drop (operator.length - 1)
            let isSetOff := r.setsOff operator reversed depth after
            (read r tokens (operator.reverse ++ reversed) depth after).cons
              { cells := (cell :: rest).take operator.length
                isSetOff
                isTight := isSetOff && (tightBefore reversed || tightAfter after) }
termination_by cells.length
decreasing_by
  · simp
  · simp
  · simp +arith [List.length_drop]

section Read

variable {r : OperatorSpacing} {tokens : List Text} {reversed token : Text} {depth : Nat}
  {cell : Cell} {rest passed : List Cell}

theorem read_nil : r.read tokens reversed depth [] = ⟨[], []⟩ := by rw [read]

theorem read_protected (hcell : cell.isProtected = true) :
    r.read tokens reversed depth (cell :: rest) =
      (r.read tokens (cell.masked :: reversed) depth rest).cons { cells := [cell] } := by
  rw [read, if_pos hcell]

theorem read_single (hcell : cell.isProtected = false)
    (hnone : operatorAt? tokens (cell :: rest) = none) (hshows : isSpaceOrTab cell.code = false) :
    r.read tokens reversed depth (cell :: rest) =
      (r.read tokens (cell.masked :: reversed) (depthAfter depth cell.masked) rest).cons
        { cells := [cell] } := by
  rw [read, if_neg (by simp [hcell])]
  simp only [hnone, hshows, Bool.false_eq_true, if_false]

theorem read_token (hcell : cell.isProtected = false)
    (hat : operatorAt? tokens (cell :: rest) = some token) :
    let after := rest.drop (token.length - 1)
    let isSetOff := r.setsOff token reversed (depthAfter depth cell.masked) after
    r.read tokens reversed depth (cell :: rest) =
      (r.read tokens (token.reverse ++ reversed) (depthAfter depth cell.masked) after).cons
        { cells := (cell :: rest).take token.length
          isSetOff
          isTight := isSetOff && (tightBefore reversed || tightAfter after) } := by
  rw [read, if_neg (by simp [hcell])]
  simp only [hat]

theorem operatorAt?_of_isSpaceOrTab (hplain : ArePlain tokens)
    (hblank : isSpaceOrTab cell.masked = true) : operatorAt? tokens (cell :: rest) = none := by
  refine List.find?_eq_none.mpr fun token htoken => ?_
  obtain ⟨hne, hshows⟩ := hplain token htoken
  obtain ⟨c, others, rfl⟩ := List.exists_cons_of_ne_nil hne
  have hc : isBlank c = false := hshows c List.mem_cons_self
  simp only [List.length_cons, List.take_succ_cons, List.map_cons, beq_iff_eq, List.cons.injEq,
    not_and]
  rintro rfl
  rw [Text.isBlank_of_isSpaceOrTab hblank] at hc
  cases hc

theorem depthAfter_of_isSpaceOrTab {c : Char} (h : isSpaceOrTab c = true) :
    depthAfter depth c = depth := by
  rcases Bool.or_eq_true_iff.mp h with h | h
  all_goals
    rw [eq_of_beq h]
    rfl

theorem read_gap (hplain : ArePlain tokens) (hcell : cell.IsGap)
    (hmasked : cell.masked = cell.code) :
    r.read tokens reversed depth (cell :: rest) =
      (r.read tokens (cell.masked :: reversed) depth rest).consGap [cell] := by
  have hblank : isSpaceOrTab cell.masked = true := hmasked ▸ hcell.blank
  rw [read, if_neg (by simp [hcell.notProtected])]
  simp only [operatorAt?_of_isSpaceOrTab hplain hblank, hcell.blank, if_true,
    depthAfter_of_isSpaceOrTab hblank]

theorem read_gaps (hplain : ArePlain tokens) {gap : List Cell}
    (hgap : ∀ c ∈ gap, c.IsGap ∧ c.masked = c.code) :
    r.read tokens reversed depth (gap ++ rest) =
      (r.read tokens ((gap.map (·.masked)).reverse ++ reversed) depth rest).consGap gap := by
  induction gap generalizing reversed with
  | nil => rcases h : r.read tokens reversed depth rest with ⟨_ | ⟨p, ps⟩, tail⟩ <;>
      simp [h, Reading.consGap]
  | cons cell gap ih =>
      obtain ⟨hcell, hrest⟩ := List.forall_mem_cons.mp hgap
      rw [List.cons_append, read_gap hplain hcell.1 hcell.2, ih hrest, Reading.consGap_consGap]
      simp

def depthOf (cells : List Cell) : Nat :=
  (cells.filter fun c => !c.isProtected).foldl (fun depth c => depthAfter depth c.masked) 0

theorem depthOf_concat (cells : List Cell) (c : Cell) :
    depthOf (cells ++ [c]) =
      if c.isProtected then depthOf cells else depthAfter (depthOf cells) c.masked := by
  cases hc : c.isProtected <;> simp [depthOf, hc]

theorem depthOf_append_of_forall {cells more : List Cell}
    (h : ∀ c ∈ more, ∀ depth, depthAfter depth c.masked = depth) :
    depthOf (cells ++ more) = depthOf cells := by
  induction more generalizing cells with
  | nil => rw [List.append_nil]
  | cons c more ih =>
      obtain ⟨hc, hmore⟩ := List.forall_mem_cons.mp h
      rw [List.append_cons, ih hmore, depthOf_concat, hc, ite_self]

end Read

section Places

/-- A piece that is a character on its own: it is protected, or no operator starts with it. -/
structure Piece.IsSingle (tokens : List Text) (p : Piece) (after : List Cell) : Prop where
  notSetOff : p.isSetOff = false
  notTight : p.isTight = false
  exists_cell : ∃ c, p.cells = [c] ∧ ¬c.IsGap ∧
    (c.isProtected = true ∨ operatorAt? tokens (c :: after) = none)

structure Piece.IsOperator (r : OperatorSpacing) (tokens : List Text) (before : List Cell)
    (p : Piece) (after : List Cell) (token : Text) : Prop where
  isToken : IsToken token p.cells
  operatorAt : operatorAt? tokens (p.cells ++ after) = some token
  isSetOff_eq : p.isSetOff =
    r.setsOff token (before.map (·.masked)).reverse (depthOf before) after
  isTight_eq : p.isTight =
    (p.isSetOff && (tightBefore (before.map (·.masked)).reverse || tightAfter after))

structure Piece.IsPlaced (r : OperatorSpacing) (tokens : List Text) (before : List Cell)
    (p : Piece) (after : List Cell) : Prop where
  gap : ∀ c ∈ p.gap, c.IsGap
  shape : p.IsSingle tokens after ∨ ∃ token, p.IsOperator r tokens before after token

def ArePlaced (r : OperatorSpacing) (tokens : List Text) (tail : List Cell) :
    List Cell → List Piece → Prop
  | _, [] => ∀ c ∈ tail, c.IsGap
  | passed, p :: ps =>
      p.IsPlaced r tokens (passed ++ p.gap) (join ps ++ tail) ∧
        ArePlaced r tokens tail (passed ++ (p.gap ++ p.cells)) ps

theorem ArePlaced.isPlaced {r : OperatorSpacing} {tokens : List Text} {passed tail : List Cell}
    {front back : List Piece} {p : Piece}
    (h : ArePlaced r tokens tail passed (front ++ p :: back)) :
    p.IsPlaced r tokens (passed ++ join front ++ p.gap) (join back ++ tail) := by
  induction front generalizing passed with
  | nil => simpa using h.1
  | cons q front ih => simpa [List.append_assoc] using ih h.2

theorem ArePlaced.tail {r : OperatorSpacing} {tokens : List Text} {passed tail : List Cell}
    {ps : List Piece} (h : ArePlaced r tokens tail passed ps) : ∀ c ∈ tail, c.IsGap := by
  induction ps generalizing passed with
  | nil => exact h
  | cons p ps ih => exact ih h.2

section Placing

variable {r : OperatorSpacing} {tokens : List Text} {reversed token : Text} {depth : Nat}
  {cells passed rest after part : List Cell} {cell : Cell} {d : Reading}

/-- A reading of the cells behind the passed ones: it keeps them, and each piece is in its place. -/
structure Reading.Reads (r : OperatorSpacing) (tokens : List Text) (passed cells : List Cell)
    (d : Reading) : Prop where
  cells_eq : d.cells = cells
  arePlaced : ArePlaced r tokens d.tail passed d.pieces

open Reading (Reads)

theorem reads_nil : Reads r tokens passed [] ⟨[], []⟩ := ⟨rfl, List.forall_mem_nil _⟩

theorem reads_gap (hcell : cell.IsGap) (h : Reads r tokens (passed ++ [cell]) rest d) :
    Reads r tokens passed (cell :: rest) (d.consGap [cell]) := by
  refine ⟨by simp [h.cells_eq], ?_⟩
  have hplaced := h.arePlaced
  rcases d with ⟨_ | ⟨p, ps⟩, tail⟩
  · exact List.forall_mem_cons.mpr ⟨hcell, hplaced⟩
  · obtain ⟨hp, hps⟩ := hplaced
    rw [List.append_assoc] at hp
    refine ⟨⟨List.forall_mem_cons.mpr ⟨hcell, hp.gap⟩, ?_⟩, ?_⟩
    · refine hp.shape.imp (fun hsingle => ⟨hsingle.1, hsingle.2, hsingle.3⟩) ?_
      rintro ⟨token, htoken, hat, hset, htight⟩
      exact ⟨token, htoken, hat, hset, htight⟩
    · have hsame : passed ++ [cell] ++ (p.gap ++ p.cells) =
          passed ++ (([cell] ++ p.gap) ++ p.cells) := by simp
      rw [hsame] at hps
      exact hps

theorem reads_single (hshows : ¬cell.IsGap)
    (hcell : cell.isProtected = true ∨ operatorAt? tokens (cell :: rest) = none)
    (h : Reads r tokens (passed ++ [cell]) rest d) :
    Reads r tokens passed (cell :: rest) (d.cons { cells := [cell] }) := by
  rw [← h.cells_eq] at hcell ⊢
  refine ⟨by simp, ⟨List.forall_mem_nil _, Or.inl ⟨rfl, rfl, cell, rfl, hshows, hcell⟩⟩, ?_⟩
  exact h.arePlaced

theorem reads_operator (htoken : IsToken token part)
    (hat : operatorAt? tokens (part ++ after) = some token)
    (h : Reads r tokens (passed ++ part) after d) :
    let isSetOff := r.setsOff token (passed.map (·.masked)).reverse (depthOf passed) after
    Reads r tokens passed (part ++ after)
      (d.cons { cells := part
                isSetOff
                isTight := isSetOff &&
                  (tightBefore (passed.map (·.masked)).reverse || tightAfter after) }) := by
  rw [← h.cells_eq] at hat ⊢
  refine ⟨by simp, ⟨List.forall_mem_nil _, Or.inr ⟨token, htoken, hat, ?_, ?_⟩⟩, h.arePlaced⟩
  all_goals
    simp only [List.append_nil]
    rfl

theorem depthAfter_of_isToken (hoperators : AreOperators tokens) (hmem : token ∈ tokens)
    (htoken : IsToken token part) : ∀ c ∈ part, ∀ depth, depthAfter depth c.masked = depth := by
  intro c hc depth
  apply depthAfter_of_mem_operatorChars
  apply (hoperators token hmem).2
  rw [← htoken.masked_eq]
  exact List.mem_map_of_mem hc

/-- The reading of a line keeps its cells and puts each piece in its place. -/
theorem reads_read (hoperators : AreOperators tokens)
    (hcells : IsSpaceable tokens (passed ++ cells))
    (hreversed : reversed = (passed.map (·.masked)).reverse) (hdepth : depth = depthOf passed) :
    Reads r tokens passed cells (r.read tokens reversed depth cells) := by
  fun_induction read r tokens reversed depth cells generalizing passed with
  | case1 => exact reads_nil
  | case2 reversed depth cell rest hprotected ih =>
      refine reads_single (fun hgap => ?_) (Or.inl hprotected) (ih (by simpa using hcells) ?_ ?_)
      · rw [hgap.notProtected] at hprotected
        cases hprotected
      · simp [hreversed]
      · rw [depthOf_concat, if_pos hprotected, hdepth]
  | case3 reversed depth cell rest hprotected depth' hnone _ hblank =>
      rename_i ih
      refine reads_gap ⟨by simpa using hprotected, hblank⟩ (ih (by simpa using hcells) ?_ ?_)
      · simp [hreversed]
      · rw [depthOf_concat, if_neg hprotected, ← hdepth]
  | case4 reversed depth cell rest hprotected depth' hnone _ hblank =>
      rename_i ih
      refine reads_single (fun hgap => hblank hgap.blank) (Or.inr hnone)
        (ih (by simpa using hcells) ?_ ?_)
      · simp [hreversed]
      · rw [depthOf_concat, if_neg hprotected, ← hdepth]
  | case5 reversed depth cell rest hprotected depth' operator hat after _ =>
      rename_i ih
      obtain ⟨htoken, hsplit, hgone⟩ :=
        split_of_operatorAt? hoperators.arePlain hcells hprotected hat
      have hnobracket :=
        depthAfter_of_isToken hoperators (List.mem_of_find?_eq_some hat) htoken
      have hcell : cell ∈ (cell :: rest).take operator.length := by
        obtain ⟨c, others, hpart⟩ := List.exists_cons_of_ne_nil htoken.ne_nil
        rw [hpart] at hsplit ⊢
        rw [(List.cons.inj hsplit).1]
        exact List.mem_cons_self
      have hsame : depth' = depthOf passed := by rw [← hdepth]; exact hnobracket cell hcell depth
      have hrest := ih hgone (reverse_map_masked htoken hreversed)
        (by rw [depthOf_append_of_forall hnobracket, hsame])
      have hoperator :
          operatorAt? tokens ((cell :: rest).take operator.length ++ after) = some operator := by
        rwa [hsplit]
      have hread := reads_operator htoken hoperator hrest
      rw [hsplit, ← hreversed, ← hsame] at hread
      exact hread

end Placing

end Places

end OperatorSpacing

end LineLint
