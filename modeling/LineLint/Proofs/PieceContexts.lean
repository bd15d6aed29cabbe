import LineLint.Proofs.ScannedText
import LineLint.Proofs.SpreadPieces

/-!
# What stands beside a piece

New gaps do not change what a piece meets. A text without blanks that can be read from a piece on
the spaced line can be read from it on the line itself, and the word that ends before a piece is the
same on both.
-/

namespace LineLint

open Cell (codes)

namespace OperatorSpacing

/-- A piece as it is read: a gap of blanks, and a single character that is no gap or an operator.
Only a parenthesis can be the parenthesis of a call. -/
structure Piece.IsSound (p : Piece) : Prop where
  gap : ∀ c ∈ p.gap, c.IsGap ∧ c.masked = c.code
  shape : (∃ c, p.cells = [c] ∧ ¬c.IsGap ∧ p.isSetOff = false) ∨
    (p.cells ≠ [] ∧ ∀ c ∈ p.cells, c.IsMark ∧ c.masked = c.code ∧ c.masked ∈ operatorChars)
  keyword : p.keyword.isSome = true → ∃ c, p.cells = [c] ∧ c.isProtected = false ∧ c.masked = '('

section Gaps

variable {ps : List Piece} {p : Piece} {behind : Bool}

theorem Piece.eq_nil_of_newGap (h : p.newGap behind = []) :
    p.gap = [] ∧ p.isSetOff = false ∧ behind = false ∧ p.keyword = none := by
  unfold newGap callGap at h
  cases hset : p.isSetOff <;> cases hkeyword : p.keyword <;> cases behind <;>
    simp_all

theorem Piece.newGap_of_kept (hset : p.isSetOff = false) (hkeyword : p.keyword = none) :
    p.newGap false = p.gap := by
  simp [newGap, callGap, hset, hkeyword]

theorem Piece.newGap_eq_nil (hgap : p.gap = []) (hset : p.isSetOff = false)
    (hkeyword : p.keyword = none) : p.newGap false = [] := by
  rw [newGap_of_kept hset hkeyword, hgap]

theorem Cell.isGap_space : Cell.space.IsGap ∧ Cell.space.masked = Cell.space.code :=
  ⟨⟨rfl, rfl⟩, rfl⟩

theorem Piece.IsSound.newGap (h : p.IsSound) (behind : Bool) :
    ∀ c ∈ p.newGap behind, c.IsGap ∧ c.masked = c.code := by
  have hcall : ∀ c ∈ callGap p.keyword, c.IsGap ∧ c.masked = c.code := by
    unfold callGap
    split_ifs
    · exact List.forall_mem_singleton.mpr Cell.isGap_space
    · exact List.forall_mem_nil _
  unfold Piece.newGap
  split_ifs
  · exact List.forall_mem_singleton.mpr Cell.isGap_space
  · exact List.forall_mem_append.mpr ⟨List.forall_mem_singleton.mpr Cell.isGap_space, hcall⟩
  · exact List.forall_mem_append.mpr ⟨h.gap, hcall⟩

theorem isSpaceOrTab_masked {gap : List Cell} (h : ∀ c ∈ gap, c.IsGap ∧ c.masked = c.code) :
    ∀ c ∈ gap, isSpaceOrTab c.masked = true := by
  intro c hc
  rw [(h c hc).2]
  exact (h c hc).1.blank

theorem isSpaceOrTab_codes {gap : List Cell} (h : ∀ c ∈ gap, c.IsGap ∧ c.masked = c.code) :
    ∀ c ∈ codes gap, isSpaceOrTab c = true := by
  intro c hc
  obtain ⟨d, hd, rfl⟩ := List.mem_map.mp hc
  exact (h d hd).1.blank

theorem Piece.IsSound.cells_ne_nil (h : p.IsSound) : p.cells ≠ [] := by
  rcases h.shape with ⟨c, hcells, -⟩ | ⟨hne, -⟩
  · rw [hcells]
    exact List.cons_ne_nil _ _
  · exact hne

theorem Piece.IsSound.not_isGap (h : p.IsSound) : ∀ c ∈ p.cells, ¬c.IsGap := by
  intro c hc hgap
  rcases h.shape with ⟨d, hd, hnot, -⟩ | ⟨-, hchars⟩
  · rw [hd, List.mem_singleton] at hc
    exact hnot (hc ▸ hgap)
  · have hshows := (hchars c hc).1.notBlank
    rw [Text.isBlank_of_isSpaceOrTab hgap.blank] at hshows
    cases hshows

theorem Piece.IsSound.isMark_of_isSetOff (h : p.IsSound) (hset : p.isSetOff = true) :
    ∀ c ∈ p.cells, c.IsMark ∧ c.masked = c.code ∧ c.masked ∈ operatorChars := by
  rcases h.shape with ⟨-, -, -, hkept⟩ | ⟨-, hchars⟩
  · rw [hset] at hkept
    cases hkept
  · exact hchars

theorem Piece.IsSound.keyword_eq_none {c : Cell} (h : p.IsSound) (hc : c ∈ p.cells)
    (hnot : c.isProtected = true ∨ c.masked ≠ '(') : p.keyword = none := by
  by_contra hsome
  obtain ⟨d, hd, hplain, hparen⟩ := h.keyword (Option.isSome_iff_ne_none.mpr hsome)
  obtain rfl : c = d := by rwa [hd, List.mem_singleton] at hc
  rcases hnot with hprotected | hne
  · rw [hplain] at hprotected
    cases hprotected
  · exact hne hparen

theorem spread_cons_of_kept (hset : p.isSetOff = false) (hkeyword : p.keyword = none) :
    spread false (p :: ps) = p :: spread false ps := by
  rw [spread_cons, Piece.newGap_of_kept hset hkeyword]
  exact congrArg (fun behind => p :: spread behind ps) hset

theorem exists_last_of_endsSetOff (hsound : ∀ p ∈ ps, p.IsSound)
    (hset : endsSetOff false ps = true) :
    ∃ cells x, join ps = cells ++ [x] ∧ x.IsMark ∧ x.masked ∈ operatorChars := by
  obtain ⟨front, p, rfl, hp⟩ := exists_concat_of_endsSetOff hset
  have hsound : p.IsSound := hsound p (by simp)
  obtain ⟨cells, x, hconcat⟩ := (List.eq_nil_or_concat p.cells).resolve_left hsound.cells_ne_nil
  obtain ⟨hmark, -, hchar⟩ := hsound.isMark_of_isSetOff hp x (by simp [hconcat])
  exact ⟨join front ++ p.gap ++ cells, x, by simp [hconcat], hmark, hchar⟩

theorem isSound_spread (hsound : ∀ p ∈ ps, p.IsSound) : ∀ p ∈ spread behind ps, p.IsSound := by
  intro p hp
  obtain ⟨front, back, hsplit⟩ := List.append_of_mem hp
  obtain ⟨front', q, back', rfl, rfl, rfl, rfl⟩ := exists_split_of_spread hsplit
  have hq := hsound q (by simp)
  exact ⟨hq.newGap _, hq.shape, hq.keyword⟩

theorem spread_of_kept (hset : ∀ p ∈ ps, p.isSetOff = false)
    (hkeyword : ∀ p ∈ ps, p.keyword = none) :
    spread false ps = ps ∧ endsSetOff false ps = false := by
  induction ps with
  | nil => exact ⟨rfl, rfl⟩
  | cons p ps ih =>
      obtain ⟨hp, hps⟩ := List.forall_mem_cons.mp hset
      obtain ⟨hnone, hnones⟩ := List.forall_mem_cons.mp hkeyword
      obtain ⟨hspread, hends⟩ := ih hps hnones
      rw [spread_cons_of_kept hp hnone, endsSetOff_cons, hp, hspread]
      exact ⟨rfl, hends⟩

/-- A protected part of the line is made of pieces that are kept, without gaps. -/
theorem exists_protected_pieces {tail part after : List Cell} (hsound : ∀ p ∈ ps, p.IsSound)
    (htail : ∀ c ∈ tail, c.IsGap) (hsplit : join ps ++ tail = part ++ after)
    (hpart : ∀ c ∈ part, c.isProtected = true) :
    ∃ front back, ps = front ++ back ∧ join front = part ∧ join back ++ tail = after ∧
      spread false front = front ∧ endsSetOff false front = false := by
  induction part generalizing ps with
  | nil => exact ⟨[], ps, rfl, rfl, hsplit, rfl, rfl⟩
  | cons c part ih =>
      obtain ⟨hc, hrest⟩ := List.forall_mem_cons.mp hpart
      have hnotGap : ¬c.IsGap := by
        intro hgap
        rw [hgap.notProtected] at hc
        cases hc
      cases ps with
      | nil =>
          refine absurd (htail c ?_) hnotGap
          rw [join_nil, List.nil_append] at hsplit
          rw [hsplit]
          exact List.mem_cons_self
      | cons p ps =>
          obtain ⟨hp, hps⟩ := List.forall_mem_cons.mp hsound
          have hgap : p.gap = [] := by
            cases hgap : p.gap with
            | nil => rfl
            | cons d gap =>
                rw [join_cons, hgap] at hsplit
                obtain ⟨rfl, -⟩ := List.cons.inj hsplit
                exact absurd (hp.gap d (by rw [hgap]; exact List.mem_cons_self)).1 hnotGap
          obtain ⟨hcells, hset⟩ : p.cells = [c] ∧ p.isSetOff = false := by
            obtain ⟨d, others, hcons⟩ := List.exists_cons_of_ne_nil hp.cells_ne_nil
            rw [join_cons, hgap, hcons] at hsplit
            obtain ⟨rfl, -⟩ := List.cons.inj hsplit
            rcases hp.shape with ⟨e, hcells, -, hset⟩ | ⟨-, hchars⟩
            · rw [hcells] at hcons
              obtain ⟨rfl, -⟩ := List.cons.inj hcons
              exact ⟨hcells, hset⟩
            · rw [(hchars d (by rw [hcons]; exact List.mem_cons_self)).1.notProtected] at hc
              cases hc
          have hkeyword : p.keyword = none :=
            hp.keyword_eq_none (hcells ▸ List.mem_singleton_self c) (Or.inl hc)
          rw [join_cons, hgap, hcells] at hsplit
          obtain ⟨front, back, rfl, hfront, hback, hspread, hends⟩ :=
            ih hps (List.cons.inj hsplit).2 hrest
          refine ⟨p :: front, back, rfl, ?_, hback, ?_, ?_⟩
          · rw [join_cons, hgap, hcells, hfront]
            rfl
          · rw [spread_cons_of_kept hset hkeyword, hspread]
          · rw [endsSetOff_cons, hset, hends]

theorem exists_piece_of_split {tail before after : List Cell} {c : Cell}
    (hsound : ∀ p ∈ ps, p.IsSound) (htail : ∀ d ∈ tail, isSpaceOrTab d.masked = true)
    (hc : isSpaceOrTab c.masked = false) (hsplit : join ps ++ tail = before ++ c :: after) :
    ∃ front p back inner outer, ps = front ++ p :: back ∧ p.cells = inner ++ c :: outer ∧
      before = join front ++ p.gap ++ inner ∧ after = outer ++ (join back ++ tail) := by
  induction ps generalizing before with
  | nil =>
      have hmem : c ∈ tail := by
        rw [join_nil, List.nil_append] at hsplit
        rw [hsplit]
        simp
      rw [htail c hmem] at hc
      cases hc
  | cons p ps ih =>
      obtain ⟨hp, hps⟩ := List.forall_mem_cons.mp hsound
      rw [join_cons, List.append_assoc] at hsplit
      rcases List.append_eq_append_iff.mp hsplit with ⟨more, hbefore, hmore⟩ | ⟨more, hhead, hmore⟩
      · obtain ⟨front, q, back, inner, outer, rfl, hq, rfl, hafter⟩ := ih hps hmore
        exact ⟨p :: front, q, back, inner, outer, rfl, hq, by simp [hbefore], hafter⟩
      · cases more with
        | nil =>
            rw [List.append_nil] at hhead
            have hrest : join ps ++ tail = [] ++ c :: after := hmore.symm
            obtain ⟨front, q, back, inner, outer, rfl, hq, hnil, hafter⟩ := ih hps hrest
            refine ⟨p :: front, q, back, inner, outer, rfl, hq, ?_, hafter⟩
            rw [join_cons, List.append_assoc, List.append_assoc, ← List.append_assoc (join front),
              ← hnil, List.append_nil, hhead]
        | cons d more =>
            obtain ⟨rfl, hafter⟩ := List.cons.inj hmore
            rcases List.append_eq_append_iff.mp hhead with
              ⟨inner, hbefore, hcells⟩ | ⟨gap, hgap, hrest⟩
            · exact ⟨[], p, ps, inner, more, rfl, hcells, by simp [hbefore], hafter⟩
            · cases gap with
              | nil =>
                  exact ⟨[], p, ps, [], more, rfl, by simpa using hrest.symm,
                    by simpa using hgap.symm, hafter⟩
              | cons e gap =>
                  obtain ⟨rfl, -⟩ := List.cons.inj hrest
                  rw [isSpaceOrTab_masked hp.gap c (by rw [hgap]; simp)] at hc
                  cases hc

/-- A character that no operator holds is a piece of its own. -/
theorem Piece.IsSound.single_of_mem {inner outer : List Cell} {c : Cell} (h : p.IsSound)
    (hcells : p.cells = inner ++ c :: outer)
    (hc : c.isProtected = true ∨ c.masked ∉ operatorChars) :
    inner = [] ∧ outer = [] ∧ p.isSetOff = false := by
  rcases h.shape with ⟨d, hd, -, hset⟩ | ⟨-, hchars⟩
  · rw [hd] at hcells
    cases inner with
    | nil => exact ⟨rfl, by simpa using (List.cons.inj hcells).2.symm, hset⟩
    | cons e inner => simp at hcells
  · obtain ⟨hmark, -, hchar⟩ := hchars c (by rw [hcells]; simp)
    rcases hc with hprotected | hnot
    · rw [hmark.notProtected] at hprotected
      cases hprotected
    · exact absurd hchar hnot

theorem exists_concat_spread {cells : List Cell} {x : Cell} (hsound : ∀ p ∈ ps, p.IsSound)
    (hcells : join ps = cells ++ [x]) (behind : Bool) :
    ∃ cells', join (spread behind ps) = cells' ++ [x] := by
  rcases List.eq_nil_or_concat ps with rfl | ⟨front, p, rfl⟩
  · simp at hcells
  · rw [List.concat_eq_append] at hsound hcells ⊢
    have hp : p.IsSound := hsound p (by simp)
    obtain ⟨others, y, hy⟩ := (List.eq_nil_or_concat p.cells).resolve_left hp.cells_ne_nil
    rw [List.concat_eq_append] at hy
    rw [join_append, join_cons, join_nil, List.append_nil, hy, ← List.append_assoc,
      ← List.append_assoc] at hcells
    obtain rfl : y = x := by simpa using (List.append_inj' hcells rfl).2
    refine ⟨join (spread behind front) ++ p.newGap (endsSetOff behind front) ++ others, ?_⟩
    rw [spread_append, spread_cons, spread_nil, join_append, join_cons, join_nil, hy]
    simp

end Gaps

section Prefixes

variable {ps : List Piece} {tail : List Cell} {more : Text} {behind : Bool}

/-- What can be read on the spaced line up to a blank can be read on the line itself. -/
theorem startsAs_spread {shown : Cell → Char}
    (hblank : ∀ p ∈ ps, ∀ behind, ∀ c ∈ p.newGap behind, isSpaceOrTab (shown c) = true) :
    Text.StartsAs ((join (spread behind ps) ++ tail).map shown ++ more)
      ((join ps ++ tail).map shown ++ more) := by
  induction ps generalizing behind with
  | nil => exact Text.startsAs_of_prefix (List.prefix_refl _)
  | cons p ps ih =>
      obtain ⟨hp, hps⟩ := List.forall_mem_cons.mp hblank
      rw [spread_cons, join_cons, join_cons]
      cases hgap : p.newGap behind with
      | nil =>
          obtain ⟨hnil, -, -, -⟩ := Piece.eq_nil_of_newGap hgap
          rw [hnil]
          have hrest : Text.StartsAs ((join (spread p.isSetOff ps) ++ tail).map shown ++ more)
              ((join ps ++ tail).map shown ++ more) := ih hps
          simpa using hrest.append_left (p.cells.map shown)
      | cons c gap =>
          have hc : isSpaceOrTab (shown c) = true := hp behind c (by rw [hgap]; simp)
          exact Text.startsAs_blank_cons hc _ _

theorem startsAs_codes_spread (hsound : ∀ p ∈ ps, p.IsSound) :
    Text.StartsAs (codes (join (spread behind ps) ++ tail) ++ more)
      (codes (join ps ++ tail) ++ more) :=
  startsAs_spread fun p hp behind c hc => ((hsound p hp).newGap behind c hc).1.blank

theorem startsAs_masked_spread (hsound : ∀ p ∈ ps, p.IsSound) :
    Text.StartsAs ((join (spread behind ps) ++ tail).map (·.masked))
      ((join ps ++ tail).map (·.masked)) := by
  have hstarts : Text.StartsAs ((join (spread behind ps) ++ tail).map (·.masked) ++ [])
      ((join ps ++ tail).map (·.masked) ++ []) :=
    startsAs_spread fun p hp behind => isSpaceOrTab_masked ((hsound p hp).newGap behind)
  simpa only [List.append_nil] using hstarts

end Prefixes

section Words

variable {q : Char → Bool} {front : List Piece} {gap : List Cell}

def backward (cells : List Cell) : Text := (cells.map (·.masked)).reverse

@[simp] theorem backward_append (cells more : List Cell) :
    backward (cells ++ more) = backward more ++ backward cells := by
  simp [backward]

@[simp] theorem backward_singleton (c : Cell) : backward [c] = [c.masked] := rfl

structure IsWordClass (q : Char → Bool) : Prop where
  blank : ∀ c, isSpaceOrTab c = true → q c = false
  operator : ∀ c ∈ operatorChars, q c = false
  parenthesis : q '(' = false

theorem backward_ne_nil {cells : List Cell} (h : cells ≠ []) : backward cells ≠ [] := by
  simpa [backward] using h

theorem takeWhile_backward_append_of_neg {cells : List Cell} (hne : cells ≠ [])
    (h : ∀ c ∈ cells, q c.masked = false) (t : Text) :
    (backward cells ++ t).takeWhile q = [] := by
  obtain ⟨c, others, hcons⟩ := List.exists_cons_of_ne_nil (backward_ne_nil hne)
  have hc : c ∈ backward cells := by rw [hcons]; exact List.mem_cons_self
  obtain ⟨d, hd, rfl⟩ := List.mem_map.mp (List.mem_reverse.mp hc)
  rw [hcons, List.cons_append, List.takeWhile_cons_of_neg (by simp [h d hd])]

theorem takeWhile_backward_gap (hq : IsWordClass q) (hne : gap ≠ [])
    (hgap : ∀ c ∈ gap, isSpaceOrTab c.masked = true) (t : Text) :
    (backward gap ++ t).takeWhile q = [] :=
  takeWhile_backward_append_of_neg hne (fun c hc => hq.blank _ (hgap c hc)) t

/-- Pieces that end with an operator end with no word. -/
theorem takeWhile_backward_of_endsSetOff (hq : IsWordClass q) (hsound : ∀ p ∈ front, p.IsSound)
    (hset : endsSetOff false front = true) : (backward (join front)).takeWhile q = [] := by
  obtain ⟨cells, x, hcells, -, hchar⟩ := exists_last_of_endsSetOff hsound hset
  rw [hcells, backward_append]
  exact takeWhile_backward_append_of_neg (List.cons_ne_nil x [])
    (List.forall_mem_singleton.mpr (hq.operator _ hchar)) _

/-- A run of the class that comes up to a piece that is kept, on the spaced line and before. -/
theorem takeWhile_backward_newGap {p : Piece} (hq : IsWordClass q)
    (hsound : ∀ p ∈ front, p.IsSound) (hp : p.IsSound) (hset : p.isSetOff = false)
    (hkeyword : p.keyword = none)
    (hrun : (backward (join (spread false front))).takeWhile q =
      (backward (join front)).takeWhile q) :
    (backward (join (spread false front) ++ p.newGap (endsSetOff false front))).takeWhile q =
      (backward (join front ++ p.gap)).takeWhile q := by
  rw [backward_append, backward_append]
  by_cases hgap : p.gap = []
  · rw [hgap]
    cases hbehind : endsSetOff false front with
    | false =>
        rw [Piece.newGap_eq_nil hgap hset hkeyword]
        exact hrun
    | true =>
        have hnew : p.newGap true ≠ [] := by
          intro hnil
          cases (Piece.eq_nil_of_newGap hnil).2.2.1
        rw [takeWhile_backward_gap hq hnew (isSpaceOrTab_masked (hp.newGap true))]
        exact (takeWhile_backward_of_endsSetOff hq hsound hbehind).symm
  · have hnew : p.newGap (endsSetOff false front) ≠ [] :=
      fun hnil => hgap (Piece.eq_nil_of_newGap hnil).1
    rw [takeWhile_backward_gap hq hnew (isSpaceOrTab_masked (hp.newGap _)),
      takeWhile_backward_gap hq hgap (isSpaceOrTab_masked hp.gap)]

/-- The word that ends the pieces is not changed by their new gaps. -/
theorem takeWhile_backward_spread (hq : IsWordClass q) (hsound : ∀ p ∈ front, p.IsSound) :
    (backward (join (spread false front))).takeWhile q =
      (backward (join front)).takeWhile q := by
  induction front using List.reverseRecOn with
  | nil => rfl
  | append_singleton front p ih =>
      obtain ⟨hfront, hp⟩ := List.forall_mem_append.mp hsound
      have hp : p.IsSound := hp p List.mem_cons_self
      rw [spread_append]
      simp only [spread_cons, spread_nil, join_append, join_cons, join_nil, List.append_nil,
        ← List.append_assoc]
      rw [backward_append _ p.cells, backward_append _ p.cells]
      rcases hp.shape with ⟨c, hcells, -, hset⟩ | ⟨hne, hchars⟩
      · rw [hcells, backward_singleton, List.singleton_append, List.singleton_append]
        cases hc : q c.masked with
        | false =>
            rw [List.takeWhile_cons_of_neg (by simp [hc]),
              List.takeWhile_cons_of_neg (by simp [hc])]
        | true =>
            rw [List.takeWhile_cons_of_pos hc, List.takeWhile_cons_of_pos hc]
            congr 1
            have hkeyword : p.keyword = none := by
              refine hp.keyword_eq_none (hcells ▸ List.mem_singleton_self c) (Or.inr ?_)
              intro hparen
              rw [hparen, hq.parenthesis] at hc
              cases hc
            exact takeWhile_backward_newGap hq hfront hp hset hkeyword (ih hfront)
      · have hnone : ∀ c ∈ p.cells, q c.masked = false :=
          fun c hc => hq.operator _ (hchars c hc).2.2
        rw [takeWhile_backward_append_of_neg hne hnone, takeWhile_backward_append_of_neg hne hnone]

end Words

section Operands

variable {front : List Piece} {gap : List Cell}

/-- Right behind an operator character an operand is called for. -/
theorem expectsOperand_operator_cons {c : Char} (hc : c ∈ operatorChars) (t : Text) :
    expectsOperand (c :: t) = true := by
  rw [expectsOperand,
    List.dropWhile_cons_of_neg (by simp [isBlank_of_mem_operatorChars c hc])]
  simp [mem_unaryContext_of_mem_operatorChars c hc]

theorem isWordClass_isWordChar : IsWordClass isWordChar := by
  refine ⟨fun c hc => ?_, of_mem_operatorChars (by decide), by decide⟩
  rcases Bool.or_eq_true_iff.mp hc with h | h
  all_goals
    rw [eq_of_beq h]
    rfl

theorem expectsOperand_of_blank {blanks : Text} (h : ∀ c ∈ blanks, isBlank c = true) (t : Text) :
    expectsOperand (blanks ++ t) = expectsOperand t := by
  rw [expectsOperand, expectsOperand, List.dropWhile_append_of_pos h]

/-- Whether an operand is called for is told by the last character and the word it ends. -/
theorem expectsOperand_congr {x : Char} {s t : Text} (hx : isBlank x = false)
    (h : (x :: s).takeWhile isWordChar = (x :: t).takeWhile isWordChar) :
    expectsOperand (x :: s) = expectsOperand (x :: t) := by
  have hdrop : ∀ t : Text, (x :: t).dropWhile isBlank = x :: t :=
    fun t => List.dropWhile_cons_of_neg (by simp [hx])
  simp only [expectsOperand, hdrop, lastName, h]

theorem isBlank_backward (hgap : ∀ c ∈ gap, isSpaceOrTab c.masked = true) :
    ∀ c ∈ backward gap, isBlank c = true := by
  intro c hc
  obtain ⟨d, hd, rfl⟩ := List.mem_map.mp (List.mem_reverse.mp hc)
  exact Text.isBlank_of_isSpaceOrTab (hgap d hd)

theorem expectsOperand_append_gap (hgap : ∀ c ∈ gap, isSpaceOrTab c.masked = true)
    (cells : List Cell) :
    expectsOperand (backward (cells ++ gap)) = expectsOperand (backward cells) := by
  rw [backward_append, expectsOperand_of_blank (isBlank_backward hgap)]

theorem expectsOperand_spread (hsound : ∀ p ∈ front, p.IsSound) :
    expectsOperand (backward (join (spread false front))) =
      expectsOperand (backward (join front)) := by
  induction front using List.reverseRecOn with
  | nil => rfl
  | append_singleton front p ih =>
      have hword := takeWhile_backward_spread isWordClass_isWordChar hsound
      obtain ⟨hfront, hp⟩ := List.forall_mem_append.mp hsound
      have hp : p.IsSound := hp p List.mem_cons_self
      rw [spread_append] at hword ⊢
      simp only [spread_cons, spread_nil, join_append, join_cons, join_nil, List.append_nil,
        backward_append, List.append_assoc] at hword ⊢
      obtain ⟨x, others, hx⟩ := List.exists_cons_of_ne_nil (backward_ne_nil hp.cells_ne_nil)
      cases hblank : isBlank x with
      | false =>
          rw [hx] at hword ⊢
          exact expectsOperand_congr hblank hword
      | true =>
          have hsingle : backward p.cells = [x] := by
            rcases hp.shape with ⟨c, hcells, -⟩ | ⟨-, hchars⟩
            · rw [hcells] at hx ⊢
              obtain ⟨rfl, -⟩ := List.cons.inj hx
              rfl
            · have hmem : x ∈ backward p.cells := by rw [hx]; exact List.mem_cons_self
              obtain ⟨c, hc, rfl⟩ := List.mem_map.mp (List.mem_reverse.mp hmem)
              rw [isBlank_of_mem_operatorChars _ (hchars c hc).2.2] at hblank
              cases hblank
          have hone : ∀ c ∈ [x], isBlank c = true := List.forall_mem_singleton.mpr hblank
          rw [hsingle, expectsOperand_of_blank hone, expectsOperand_of_blank hone,
            expectsOperand_of_blank (isBlank_backward (isSpaceOrTab_masked (hp.newGap _))),
            expectsOperand_of_blank (isBlank_backward (isSpaceOrTab_masked hp.gap)), ih hfront]

end Operands

end OperatorSpacing

end LineLint
