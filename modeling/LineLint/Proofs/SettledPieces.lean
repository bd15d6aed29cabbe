import LineLint.Proofs.ExponentMarks
import LineLint.Proofs.SpacedCalls

/-!
# The pieces of a spaced line

An operator that is set off on the spaced line is one that was set off on the line itself: it is the
same token, and what stands before it and behind it gives the same verdict. It is therefore set off
by single spaces already.
-/

namespace LineLint

open Cell (codes)

def Cell.shown (c : Cell) : Char × Char := (c.code, c.masked)

namespace OperatorSpacing

section Alike

/-- Cells that show the same, whatever of them is protected. -/
def Alike (cells others : List Cell) : Prop := cells.map Cell.shown = others.map Cell.shown

variable {cells others before after : List Cell} {c : Cell}

theorem Alike.codes_eq (h : Alike cells others) : codes cells = codes others := by
  have hfirst := congrArg (List.map Prod.fst) h
  rwa [List.map_map, List.map_map] at hfirst

theorem Alike.maskOf_eq (h : Alike cells others) : maskOf cells = maskOf others := by
  have hsecond := congrArg (List.map Prod.snd) h
  rwa [List.map_map, List.map_map] at hsecond

theorem Alike.backward_eq (h : Alike cells others) : backward cells = backward others :=
  congrArg List.reverse h.maskOf_eq

theorem Alike.length_eq (h : Alike cells others) : cells.length = others.length := by
  simpa using congrArg List.length h

theorem alike_of_eq (hcodes : codes cells = codes others) (hmasks : maskOf cells = maskOf others) :
    Alike cells others := by
  have hzip (cells : List Cell) : cells.map Cell.shown = (codes cells).zip (maskOf cells) := by
    rw [codes, maskOf, List.zip_map']
    rfl
  rw [Alike, hzip, hzip, hcodes, hmasks]

theorem Alike.of_append {rest rest' : List Cell} (h : Alike (cells ++ rest) (others ++ rest'))
    (hlength : cells.length = others.length) : Alike rest rest' := by
  rw [Alike, List.map_append, List.map_append] at h
  exact (List.append_inj h (by simpa using hlength)).2

theorem Alike.exists_split (h : Alike (before ++ c :: after) others) :
    ∃ before' c' after', others = before' ++ c' :: after' ∧ Alike before before' ∧
      c.shown = c'.shown ∧ Alike after after' := by
  rw [Alike, List.map_append, List.map_cons] at h
  obtain ⟨before', rest, rfl, hbefore, hrest⟩ := List.map_eq_append_iff.mp h.symm
  obtain ⟨c', after', rfl, hc, hafter⟩ := List.map_eq_cons_iff.mp hrest
  exact ⟨before', c', after', rfl, hbefore.symm, hc.symm, hafter.symm⟩

end Alike

section Tokens

variable {tokens : List Text} {cells : List Cell} {token : Text}

theorem IsToken.length_eq (h : IsToken token cells) : cells.length = token.length := by
  rw [← h.codes_eq, codes, List.length_map]

theorem Piece.IsOperator.keyword_eq_none {r : OperatorSpacing} {p : Piece}
    {before after : List Cell} (h : p.IsOperator r tokens before after token)
    (hoperators : AreOperators tokens) (hsound : p.IsSound) : p.keyword = none := by
  obtain ⟨c, others, hcons⟩ := List.exists_cons_of_ne_nil h.isToken.ne_nil
  have hc : c ∈ p.cells := by rw [hcons]; exact List.mem_cons_self
  refine hsound.keyword_eq_none hc (Or.inr fun hparen => ?_)
  exact absurd (hparen ▸ h.isToken.masked_mem hoperators h.mem c hc) (by decide)

theorem operatorAt?_eq (tokens : List Text) (cells : List Cell) :
    operatorAt? tokens cells = tokens.find? fun token => token.isPrefixOf (maskOf cells) := by
  rw [operatorAt?]
  congr 1
  funext token
  rw [Bool.eq_iff_iff, beq_iff_eq, List.isPrefixOf_iff_prefix, List.prefix_iff_eq_take, maskOf,
    List.map_take]
  exact eq_comm

theorem prefix_of_operatorAt? (h : operatorAt? tokens cells = some token) :
    token <+: maskOf cells := by
  rw [operatorAt?_eq] at h
  exact List.isPrefixOf_iff_prefix.mp (List.find?_some (p := fun token : Text =>
    token.isPrefixOf (maskOf cells)) h)

theorem find?_unique {α : Type} {l : List α} {p q : α → Bool} {a b : α}
    (ha : l.find? p = some a) (hb : l.find? q = some b) (hqa : q a = true) (hpb : p b = true) :
    a = b := by
  induction l with
  | nil => cases ha
  | cons x l ih =>
      rw [List.find?_cons] at ha hb
      cases hp : p x <;> cases hq : q x <;> simp only [hp, hq] at ha hb
      · exact ih ha hb
      · obtain rfl := Option.some.inj hb
        rw [hp] at hpb
        cases hpb
      · obtain rfl := Option.some.inj ha
        rw [hq] at hqa
        cases hqa
      · exact Option.some.inj (ha.symm.trans hb)

theorem operatorAt?_unique {other : Text} {others : List Cell}
    (h : operatorAt? tokens cells = some token) (hother : operatorAt? tokens others = some other)
    (htoken : token <+: maskOf others) (hcells : other <+: maskOf cells) : token = other := by
  rw [operatorAt?_eq] at h hother
  exact find?_unique h hother (List.isPrefixOf_iff_prefix.mpr htoken)
    (List.isPrefixOf_iff_prefix.mpr hcells)

end Tokens

variable {r : OperatorSpacing} {line : Text}

section Depths

theorem foldl_depthAfter_of_blank {t : Text} (h : ∀ c ∈ t, isSpaceOrTab c = true) (depth : Nat) :
    t.foldl depthAfter depth = depth := by
  induction t with
  | nil => rfl
  | cons c t ih =>
      obtain ⟨hc, ht⟩ := List.forall_mem_cons.mp h
      rw [List.foldl_cons, depthAfter_of_isSpaceOrTab hc, ih ht]

theorem foldl_depthAfter_gap {gap : List Cell} (hgap : ∀ c ∈ gap, c.IsGap ∧ c.masked = c.code)
    (depth : Nat) : (maskOf gap).foldl depthAfter depth = depth := by
  refine foldl_depthAfter_of_blank (fun c hc => ?_) depth
  obtain ⟨d, hd, rfl⟩ := List.mem_map.mp hc
  exact isSpaceOrTab_masked hgap d hd

theorem foldl_depthAfter_spread {ps : List Piece} {behind : Bool} (hsound : ∀ p ∈ ps, p.IsSound)
    (depth : Nat) :
    (maskOf (join (spread behind ps))).foldl depthAfter depth =
      (maskOf (join ps)).foldl depthAfter depth := by
  induction ps generalizing behind depth with
  | nil => rfl
  | cons p ps ih =>
      obtain ⟨hp, hps⟩ := List.forall_mem_cons.mp hsound
      rw [spread_cons, join_cons, join_cons]
      simp only [maskOf_append, List.foldl_append]
      rw [foldl_depthAfter_gap (hp.newGap behind), foldl_depthAfter_gap hp.gap, ih hps]

/-- Where arguments are told by brackets, the open brackets can be counted on the masked text. -/
theorem depthOf_eq_foldl (h : r.IsRegular) (harguments : r.keywordArguments = true)
    {before after : List Cell} (hcells : r.codeCells line = before ++ after) :
    depthOf before = (maskOf before).foldl depthAfter 0 := by
  induction before using List.reverseRecOn generalizing after with
  | nil => rfl
  | append_singleton before c ih =>
      rw [List.append_assoc, List.singleton_append] at hcells
      rw [depthOf_concat, ih hcells, maskOf_append, List.foldl_append]
      split_ifs with hprotected
      · have hsame : depthAfter ((maskOf before).foldl depthAfter 0) c.masked =
            (maskOf before).foldl depthAfter 0 := by
          -- without generic spans, only a literal can protect the character
          by_cases hmask : c.masked = maskChar
          · rw [hmask]
            rfl
          · by_cases hquote : c.masked ∈ r.style.quotes
            · have hnot := (h.quoteChars _ hquote).2
              have hbrackets : c.masked ∉ ['(', '[', '{'] ++ [')', ']', '}'] := hnot
              rw [List.mem_append, not_or] at hbrackets
              simp [depthAfter, hbrackets.1, hbrackets.2]
            · obtain ⟨hgenerics, -⟩ := exists_generic_of_protected hcells hprotected hmask hquote
              rw [h.arguments harguments] at hgenerics
              cases hgenerics
        exact hsame.symm
      · rfl

end Depths

section Line

theorem splitComment_normalize (h : r.IsRegular) (line : Text) :
    r.style.splitComment (r.normalize line).line =
      (codes (r.reading line).spaced, (r.style.splitComment line).2) := by
  rw [normalize_eq h, (isCode_spaced h line).split_eq]

theorem alike_spaced (h : r.IsRegular) (line : Text) :
    Alike (r.codeCells (r.normalize line).line) (r.reading line).spaced := by
  have hcode := congrArg Prod.fst (splitComment_normalize h line)
  refine alike_of_eq ?_ ?_
  · exact Cell.codes_ofCode.trans hcode
  · exact (masked_codeCells r _).trans ((congrArg _ hcode).trans (isCode_spaced h line).masked_eq)

theorem keyword_spaced (h : r.IsRegular) {before after : List Cell} {c : Cell}
    (hcells : r.codeCells (r.normalize line).line = before ++ c :: after) : c.keyword = none := by
  have hmask : r.style.maskLiterals (r.style.splitComment (r.normalize line).line).1 =
      maskOf (r.reading line).spaced :=
    (masked_codeCells r _).symm.trans (alike_spaced h line).maskOf_eq
  rw [(isAt_of_split hcells).keyword_eq, hmask, findAll_spaced_eq_nil h]
  exact ite_self none

end Line

section Places

variable {front back : List Piece} {p : Piece} {token : Text}

theorem exists_place_of_isSetOff (h : r.IsRegular)
    (hsplit : (r.reading (r.normalize line).line).pieces = front ++ p :: back)
    (hset : p.isSetOff = true) :
    ∃ front' p' back', (r.reading line).pieces = front' ++ p' :: back' ∧
      Alike (join front ++ p.gap)
        (join (spread false front') ++ p'.newGap (endsSetOff false front')) ∧
      Alike (p.cells ++ (join back ++ (r.reading (r.normalize line).line).tail))
        (p'.cells ++ (join (spread p'.isSetOff back') ++ (r.reading line).tail)) := by
  have halike := alike_spaced h line
  have hsound := isSound_of_split h hsplit
  have hoperand := not_expectsOperand_of_isSetOff h hsplit hset
  rw [← expectsOperand_append_gap (isSpaceOrTab_masked hsound.gap)] at hoperand
  obtain ⟨c, others, hcons⟩ := List.exists_cons_of_ne_nil hsound.cells_ne_nil
  have hchar : c.masked ∈ operatorChars :=
    (hsound.isMark_of_isSetOff hset c (by rw [hcons]; exact List.mem_cons_self)).2.2
  rw [codeCells_eq_of_split h hsplit, hcons, List.cons_append] at halike
  obtain ⟨before, c', after, hspaced, hbefore, hc, hafter⟩ := halike.exists_split
  have hmasked : c'.masked = c.masked := (congrArg Prod.snd hc).symm
  have hsolid : isSpaceOrTab c'.masked = false := by
    rw [hmasked]
    exact isSpaceOrTab_of_not_isBlank (isBlank_of_mem_operatorChars _ hchar)
  obtain ⟨front', p', back', inner, outer, hpieces, hcells, rfl, rfl⟩ := exists_piece_of_split
    (isSound_spread (isSound_of_mem h line)) (isSpaceOrTab_masked (gap_tail h _)) hsolid
    hspaced
  obtain ⟨front', p', back', hsplit', rfl, rfl, rfl⟩ := exists_split_of_spread hpieces
  replace hcells : p'.cells = inner ++ c' :: outer := hcells
  -- inside an operator an operand would be called for
  obtain rfl : inner = [] := by
    rcases (isSound_of_split h hsplit').shape with ⟨d, hd, -⟩ | ⟨-, hchars⟩
    · rw [hd] at hcells
      cases inner with
      | nil => rfl
      | cons e inner => simp at hcells
    · rcases List.eq_nil_or_concat inner with rfl | ⟨inner, e, rfl⟩
      · rfl
      · have he := (hchars e (by simp [hcells])).2.2
        rw [hbefore.backward_eq, List.concat_eq_append, ← List.append_assoc, backward_append,
          backward_singleton, List.singleton_append, expectsOperand_operator_cons he] at hoperand
        cases hoperand
  refine ⟨front', p', back', hsplit', by simpa using hbefore, ?_⟩
  rw [hcons, hcells]
  simp only [Alike, List.nil_append, List.cons_append, List.map_cons, hc]
  exact congrArg _ hafter

end Places

section Verdicts

variable {front back ps : List Piece} {p : Piece} {tail : List Cell} {token : Text}

theorem isWordClass_isMarkChar : IsWordClass isMarkChar := by
  refine ⟨fun c hc => ?_, of_mem_operatorChars (by decide), by decide⟩
  rcases Bool.or_eq_true_iff.mp hc with h | h
  all_goals
    rw [eq_of_beq h]
    rfl

theorem isDigit_of_isSpaceOrTab {c : Char} (h : isSpaceOrTab c = true) : isDigit c = false := by
  rcases Bool.or_eq_true_iff.mp h with h | h
  all_goals
    rw [eq_of_beq h]
    rfl

theorem tightBefore_backward_append {cells : List Cell} (hne : cells ≠ []) (more : List Cell) :
    tightBefore (backward (more ++ cells)) = tightBefore (backward cells) := by
  obtain ⟨c, others, hcons⟩ := List.exists_cons_of_ne_nil (backward_ne_nil hne)
  rw [backward_append, hcons]
  rfl

theorem tightBefore_backward_gap {gap : List Cell} (hne : gap ≠ [])
    (hgap : ∀ c ∈ gap, isSpaceOrTab c.masked = true) (more : List Cell) :
    tightBefore (backward (more ++ gap)) = false := by
  rw [tightBefore_backward_append hne]
  obtain ⟨c, others, hcons⟩ := List.exists_cons_of_ne_nil (backward_ne_nil hne)
  have hblank := isBlank_backward hgap c (by rw [hcons]; exact List.mem_cons_self)
  rw [hcons, tightBefore, List.head?_cons, Option.any_some, hblank]
  rfl

theorem tightAfter_gap {gap : List Cell} (hne : gap ≠ [])
    (hgap : ∀ c ∈ gap, isSpaceOrTab c.masked = true) (more : List Cell) :
    tightAfter (gap ++ more) = false := by
  obtain ⟨c, others, rfl⟩ := List.exists_cons_of_ne_nil hne
  have hblank := Text.isBlank_of_isSpaceOrTab (hgap c List.mem_cons_self)
  rw [tightAfter, List.cons_append, List.head?_cons, Option.any_some, hblank]
  rfl

theorem tightBefore_of_newGap (hfront : ∀ q ∈ front, q.IsSound) (hp : p.IsSound)
    (htight : tightBefore
      (backward (join (spread false front) ++ p.newGap (endsSetOff false front))) = true) :
    tightBefore (backward (join front ++ p.gap)) = true := by
  have hnil : p.newGap (endsSetOff false front) = [] := by
    by_contra hne
    rw [tightBefore_backward_gap hne (isSpaceOrTab_masked (hp.newGap _))] at htight
    cases htight
  rw [hnil, List.append_nil] at htight
  rw [(Piece.eq_nil_of_newGap hnil).1, List.append_nil]
  rcases List.eq_nil_or_concat front with rfl | ⟨front, q, rfl⟩
  · exact htight
  · have hq : q.cells ≠ [] := (hfront q (by simp)).cells_ne_nil
    simp only [List.concat_eq_append, spread_append, spread_cons, spread_nil, join_append,
      join_cons, join_nil, List.append_nil, ← List.append_assoc] at htight ⊢
    rwa [tightBefore_backward_append hq] at htight ⊢

theorem tightAfter_of_spread {behind : Bool} (hsound : ∀ q ∈ ps, q.IsSound)
    (htight : tightAfter (join (spread behind ps) ++ tail) = true) :
    tightAfter (join ps ++ tail) = true := by
  cases ps with
  | nil => exact htight
  | cons q ps =>
      have hq := hsound q List.mem_cons_self
      simp only [spread_cons, join_cons, List.append_assoc] at htight ⊢
      have hnil : q.newGap behind = [] := by
        by_contra hne
        rw [tightAfter_gap hne (isSpaceOrTab_masked (hq.newGap _))] at htight
        cases htight
      obtain ⟨c, others, hcons⟩ := List.exists_cons_of_ne_nil hq.cells_ne_nil
      rw [hnil, hcons] at htight
      rw [(Piece.eq_nil_of_newGap hnil).1, hcons]
      exact htight

/-- A digit right behind an operator that is kept stays there. -/
theorem head?_spread_of_isDigit (hsound : ∀ q ∈ ps, q.IsSound)
    (hdigit : ((join ps ++ tail).head?.any fun c => isDigit c.masked) = true) :
    ((join (spread false ps) ++ tail).head?.any fun c => isDigit c.masked) = true := by
  cases ps with
  | nil => exact hdigit
  | cons q ps =>
      have hq := hsound q List.mem_cons_self
      obtain ⟨c, others, hcons⟩ := List.exists_cons_of_ne_nil hq.cells_ne_nil
      have hgap : q.gap = [] := by
        cases hgap : q.gap with
        | nil => rfl
        | cons d gap =>
            have hblank := isSpaceOrTab_masked hq.gap d (by rw [hgap]; exact List.mem_cons_self)
            simp only [join_cons, hgap, List.cons_append, List.head?_cons, Option.any_some,
              isDigit_of_isSpaceOrTab hblank, Bool.false_eq_true] at hdigit
      simp only [join_cons, spread_cons, hgap, hcons, List.nil_append, List.cons_append,
        List.append_assoc, List.head?_cons, Option.any_some] at hdigit ⊢
      have hoperator : c.masked ∉ operatorChars := by
        intro hchar
        have hnone : ∀ c ∈ operatorChars, isDigit c = false := of_mem_operatorChars (by decide)
        rw [hnone _ hchar] at hdigit
        cases hdigit
      have hsplit : q.cells = [] ++ c :: others := hcons
      obtain ⟨-, -, hset⟩ := hq.single_of_mem hsplit (Or.inr hoperator)
      have hkeyword : q.keyword = none := by
        refine hq.keyword_eq_none (c := c) (by rw [hcons]; exact List.mem_cons_self) (Or.inr ?_)
        intro hparen
        rw [hparen] at hdigit
        cases hdigit
      rw [Piece.newGap_eq_nil hgap hset hkeyword]
      exact hdigit

theorem setsOff_spread_of_kept {depth : Nat} (hfront : ∀ q ∈ front, q.IsSound) (hp : p.IsSound)
    (hback : ∀ q ∈ back, q.IsSound) (hset : p.isSetOff = false) (hkeyword : p.keyword = none)
    (hkept : r.setsOff token (backward (join front ++ p.gap)) depth (join back ++ tail) = false) :
    r.setsOff token (backward (join (spread false front) ++ p.newGap (endsSetOff false front)))
      depth (join (spread false back) ++ tail) = false := by
  have hoperand : expectsOperand
      (backward (join (spread false front) ++ p.newGap (endsSetOff false front))) =
        expectsOperand (backward (join front ++ p.gap)) := by
    rw [expectsOperand_append_gap (isSpaceOrTab_masked (hp.newGap _)), expectsOperand_spread hfront,
      expectsOperand_append_gap (isSpaceOrTab_masked hp.gap)]
  have hexponent : inExponent token
      (backward (join (spread false front) ++ p.newGap (endsSetOff false front))) =
        inExponent token (backward (join front ++ p.gap)) := by
    rw [Bool.eq_iff_iff, inExponent_iff, inExponent_iff,
      takeWhile_backward_newGap isWordClass_isMarkChar hfront hp hset hkeyword
        (takeWhile_backward_spread isWordClass_isMarkChar hfront)]
  simp only [setsOff, Bool.not_eq_false', Bool.or_eq_true, Bool.and_eq_true, Bool.not_eq_true',
    Bool.and_eq_false_iff] at hkept ⊢
  rcases hkept with hkeeps | ⟨hunary, hloose⟩
  · left
    simp only [keeps, Bool.or_eq_true, Bool.and_eq_true, hoperand, hexponent] at hkeeps ⊢
    exact hkeeps.imp_right fun hin => ⟨hin.1, head?_spread_of_isDigit hback hin.2⟩
  · right
    refine ⟨hunary, hloose.imp (fun hbefore => ?_) fun hafter => ?_⟩
    · by_contra htight
      rw [tightBefore_of_newGap hfront hp (by simpa using htight)] at hbefore
      cases hbefore
    · by_contra htight
      rw [tightAfter_of_spread hback (by simpa using htight)] at hafter
      cases hafter

end Verdicts

section Agreement

variable {front back front' back' : List Piece} {p p' : Piece} {token : Text}

/-- An operator of the spaced line can be read on the line, where what is behind it may have come
nearer. -/
theorem prefix_of_place (h : r.IsRegular) (hback : ∀ q ∈ back', q.IsSound)
    (hrest : Alike (p.cells ++ (join back ++ (r.reading (r.normalize line).line).tail))
      (p'.cells ++ (join (spread p'.isSetOff back') ++ (r.reading line).tail)))
    (htoken : p.IsOperator r r.table.byLength (join front ++ p.gap)
      (join back ++ (r.reading (r.normalize line).line).tail) token) :
    token <+: maskOf (p'.cells ++ (join back' ++ (r.reading line).tail)) := by
  have hstarts : Text.StartsAs
      (maskOf (join (spread p'.isSetOff back') ++ (r.reading line).tail))
      (maskOf (join back' ++ (r.reading line).tail)) := startsAs_masked_spread hback
  have hchars := (h.operators token htoken.mem).2
  rw [maskOf_append]
  refine hstarts.append_left (maskOf p'.cells) token (fun c hc => ?_) ?_
  · exact isSpaceOrTab_of_not_isBlank (isBlank_of_mem_operatorChars c (hchars c hc))
  · have hread := prefix_of_operatorAt? htoken.operatorAt
    rwa [hrest.maskOf_eq, maskOf_append] at hread

theorem notProtected_of_place (h : r.IsRegular)
    (hsplit : (r.reading (r.normalize line).line).pieces = front ++ p :: back)
    (hsplit' : (r.reading line).pieces = front' ++ p' :: back') {x : Cell} (hx : p'.cells = [x])
    (hplace : Alike (join front ++ p.gap)
      (join (spread false front') ++ p'.newGap (endsSetOff false front')))
    (hrest : Alike (p.cells ++ (join back ++ (r.reading (r.normalize line).line).tail))
      (p'.cells ++ (join (spread p'.isSetOff back') ++ (r.reading line).tail)))
    (htoken : p.IsOperator r r.table.byLength (join front ++ p.gap)
      (join back ++ (r.reading (r.normalize line).line).tail) token) : x.isProtected = false := by
  by_contra hprotected
  obtain ⟨c, others, hcons⟩ := List.exists_cons_of_ne_nil htoken.isToken.ne_nil
  have hc : c ∈ p.cells := by rw [hcons]; exact List.mem_cons_self
  have hmask : x.masked = c.masked := by
    have hmask := hrest.maskOf_eq
    rw [hcons, hx] at hmask
    exact (List.cons.inj hmask).1.symm
  have hspaced := isProtected_spaced h hsplit' hx (by simpa using hprotected)
    (hmask ▸ htoken.isToken.masked_mem h.operators htoken.mem c hc)
  have hcells := codeCells_eq_of_split h hsplit
  rw [hcons, List.cons_append] at hcells
  have hat := (isAt_of_split hcells).protected_eq
  rw [splitComment_normalize h, hplace.length_eq, hspaced,
    (htoken.isToken.isMark c hc).notProtected] at hat
  cases hat

theorem isOperator_of_place (h : r.IsRegular)
    (hsplit : (r.reading (r.normalize line).line).pieces = front ++ p :: back)
    (hsplit' : (r.reading line).pieces = front' ++ p' :: back')
    (hplace : Alike (join front ++ p.gap)
      (join (spread false front') ++ p'.newGap (endsSetOff false front')))
    (hrest : Alike (p.cells ++ (join back ++ (r.reading (r.normalize line).line).tail))
      (p'.cells ++ (join (spread p'.isSetOff back') ++ (r.reading line).tail)))
    (htoken : p.IsOperator r r.table.byLength (join front ++ p.gap)
      (join back ++ (r.reading (r.normalize line).line).tail) token) :
    p'.IsOperator r r.table.byLength (join front' ++ p'.gap)
      (join back' ++ (r.reading line).tail) token := by
  have hsound := isSound_of_mem h line
  rw [hsplit'] at hsound
  have hbegins := prefix_of_place h (fun q hq => hsound q (by simp [hq])) hrest htoken
  rcases (isPlaced_of_split h hsplit').shape with hsingle | ⟨token', htoken'⟩
  · exfalso
    obtain ⟨x, hx, -, hsingle⟩ := hsingle.exists_cell
    rcases hsingle with hprotected | hnone
    · rw [notProtected_of_place h hsplit hsplit' hx hplace hrest htoken] at hprotected
      cases hprotected
    · rw [operatorAt?_eq, List.find?_eq_none] at hnone
      rw [hx] at hbegins
      exact hnone token htoken.mem (List.isPrefixOf_iff_prefix.mpr hbegins)
  · have hsame : token = token' := by
      refine operatorAt?_unique htoken.operatorAt htoken'.operatorAt hbegins ?_
      rw [hrest.maskOf_eq, maskOf_append]
      exact (htoken'.isToken.masked_eq ▸ List.prefix_append _ _)
    rw [hsame]
    exact htoken'

theorem tightAfter_of_head {after after' : List Cell}
    (h : (maskOf after).head? = (maskOf after').head?) : tightAfter after = tightAfter after' := by
  have hany := congrArg (Option.any fun c => !isBlank c) h
  simpa [maskOf, tightAfter, Option.any_map, Function.comp_def] using hany

theorem setsOff_of_head {reversed : Text} {depth : Nat} {after after' : List Cell}
    (h : (maskOf after).head? = (maskOf after').head?) :
    r.setsOff token reversed depth after = r.setsOff token reversed depth after' := by
  have hdigit : (after.head?.any fun c => isDigit c.masked) =
      after'.head?.any fun c => isDigit c.masked := by
    simpa [maskOf, Option.any_map, Function.comp_def] using congrArg (Option.any isDigit) h
  simp only [setsOff, keeps, hdigit, tightAfter_of_head h]

theorem setsOff_congr {reversed : Text} {depth : Nat} {after after' : List Cell}
    (h : Alike after after') :
    r.setsOff token reversed depth after = r.setsOff token reversed depth after' :=
  setsOff_of_head (congrArg List.head? h.maskOf_eq)

/-- As many brackets are open at a place of the spaced line as at the place on the line. -/
theorem setsOff_depthOf (h : r.IsRegular)
    (hsplit : (r.reading (r.normalize line).line).pieces = front ++ p :: back)
    (hsplit' : (r.reading line).pieces = front' ++ p' :: back')
    (hplace : Alike (join front ++ p.gap)
      (join (spread false front') ++ p'.newGap (endsSetOff false front'))) {reversed : Text}
    {after : List Cell} :
    r.setsOff token reversed (depthOf (join front ++ p.gap)) after =
      r.setsOff token reversed (depthOf (join front' ++ p'.gap)) after := by
  cases harguments : r.keywordArguments with
  | false => simp only [setsOff, keeps, harguments, Bool.false_and]
  | true =>
      have hsound := isSound_of_mem h line
      rw [hsplit'] at hsound
      simp only [List.forall_mem_append, List.forall_mem_cons] at hsound
      obtain ⟨hfront, hp', -⟩ := hsound
      rw [depthOf_eq_foldl h harguments (codeCells_eq_of_split h hsplit),
        depthOf_eq_foldl h harguments (codeCells_eq_of_split h hsplit'), hplace.maskOf_eq,
        maskOf_append, maskOf_append, List.foldl_append, List.foldl_append,
        foldl_depthAfter_spread hfront, foldl_depthAfter_gap (hp'.newGap _),
        foldl_depthAfter_gap hp'.gap]

theorem isSetOff_of_place (h : r.IsRegular)
    (hsplit : (r.reading (r.normalize line).line).pieces = front ++ p :: back)
    (hset : p.isSetOff = true)
    (hsplit' : (r.reading line).pieces = front' ++ p' :: back')
    (hplace : Alike (join front ++ p.gap)
      (join (spread false front') ++ p'.newGap (endsSetOff false front')))
    (hrest : Alike (p.cells ++ (join back ++ (r.reading (r.normalize line).line).tail))
      (p'.cells ++ (join (spread p'.isSetOff back') ++ (r.reading line).tail))) :
    p'.isSetOff = true ∧ Alike (join back ++ (r.reading (r.normalize line).line).tail)
      (join (spread true back') ++ (r.reading line).tail) := by
  obtain ⟨token, htoken⟩ := exists_operator_of_isSetOff h hsplit hset
  have htoken' := isOperator_of_place h hsplit hsplit' hplace hrest htoken
  have hsound := isSound_of_mem h line
  rw [hsplit'] at hsound
  simp only [List.forall_mem_append, List.forall_mem_cons] at hsound
  obtain ⟨hfront, hp', hback⟩ := hsound
  have hbehind := hrest.of_append (htoken.isToken.length_eq.trans htoken'.isToken.length_eq.symm)
  have hsetOff : p'.isSetOff = true := by
    by_contra hkept
    rw [Bool.not_eq_true] at hkept
    rw [hkept] at hbehind
    have hverdict := htoken'.isSetOff_eq
    rw [hkept] at hverdict
    have hspread := setsOff_spread_of_kept hfront hp' hback hkept
      (htoken'.keyword_eq_none h.operators hp') hverdict.symm
    have hread := htoken.isSetOff_eq
    rw [hset, setsOff_congr hbehind, setsOff_depthOf h hsplit hsplit' hplace] at hread
    rw [← hplace.backward_eq] at hspread
    exact absurd (hread.trans hspread) (by decide)
  rw [hsetOff] at hbehind
  exact ⟨hsetOff, hbehind⟩

end Agreement

end OperatorSpacing

end LineLint
