import LineLint.Proofs.SpacedGenerics

/-!
# Calls on the spaced line

The parenthesis behind a control keyword is set off. A keyword that stands right before a
parenthesis on the spaced line stood there on the line itself, where the call was found; so no call
is left.
-/

namespace LineLint

open Cell (codes)
open Cursor (Passes)

namespace OperatorSpacing

def isCallPart (c : Char) : Bool := isWordChar c || c == '.' || c == '$'

theorem isWordClass_isCallPart : IsWordClass isCallPart := by
  refine ⟨fun c hc => ?_, of_mem_operatorChars (by decide), by decide⟩
  rcases Bool.or_eq_true_iff.mp hc with h | h
  all_goals
    rw [eq_of_beq h]
    rfl

section Pattern

open Pattern

variable {keywords : List Text} {t : Text} {m : Match} {c d : Cursor}

def callBody (keywords : List Text) : Pattern :=
  .group "keyword" (.choice (keywords.map Pattern.textPattern)) ++ .char '('

theorem isFree_callBody (keywords : List Text) : (callBody keywords).IsFree := by
  refine isFree_append (isFree_choice fun p hp => ?_) trivial
  obtain ⟨keyword, -, rfl⟩ := List.mem_map.mp hp
  exact isFree_textPattern keyword

theorem mem_results_keywordCall_iff :
    d ∈ (keywordCall keywords).results c ↔
      c.previous.any isCallPart = false ∧ d ∈ (callBody keywords).results c := by
  rw [keywordCall, results_append_assoc, mem_results_notAfter_iff]
  rfl

structure IsCallAt (keywords : List Text) (before keyword : Text) : Prop where
  previous : before.getLast?.any isCallPart = false
  mem : keyword ∈ keywords
  exists_results : ∃ c d, d ∈ (callBody keywords).results c ∧ Passes (keyword ++ ['(']) c d

theorem exists_isCallAt (h : m ∈ (keywordCall keywords).findAll t) :
    ∃ before keyword after, t = before ++ (keyword ++ '(' :: after) ∧ m.start = before.length ∧
      m.stop = (before ++ keyword).length + 1 ∧ IsCallAt keywords before keyword := by
  obtain ⟨before, taken, after, d, rfl, hstart, hstop, -, hpasses, hd⟩ :=
    exists_results_of_mem_findAll h
  obtain ⟨hprevious, hbody⟩ := mem_results_keywordCall_iff.mp hd
  obtain ⟨behindKeyword, hkeyword, hopening⟩ := mem_results_append_iff.mp hbody
  obtain ⟨inner, hinner, rfl⟩ := List.mem_map.mp hkeyword
  obtain ⟨pattern, hpattern, hinner⟩ := mem_results_choice hinner
  obtain ⟨keyword, hmem, rfl⟩ := List.mem_map.mp hpattern
  obtain ⟨opening, hparen, hopening⟩ := passes_of_mem_one hopening
  rw [eq_of_beq hparen] at hopening
  have hpassed := ((passes_of_mem_textPattern hinner).record "keyword" _).trans hopening
  obtain rfl := hpasses.eq hpassed
  refine ⟨before, keyword, after, by simp, hstart, ?_, hprevious, hmem, _, d, hbody, hpassed⟩
  rw [hstop, List.length_append, List.length_append, List.length_singleton, Nat.add_assoc]

/-- Wherever a call can be matched, a match that is found ends with its parenthesis. -/
theorem exists_mem_findAll_of_call {before keyword : Text} (h : IsCallAt keywords before keyword)
    (hwords : ∀ keyword ∈ keywords, ∀ c ∈ keyword, isWordChar c = true) (after : Text) :
    ∃ m ∈ (keywordCall keywords).findAll (before ++ (keyword ++ '(' :: after)),
      m.stop = (before ++ keyword).length + 1 := by
  obtain ⟨hprevious, hmem, c, d, hd, hpasses⟩ := h
  have hrest : (⟨before.length, before.getLast?, keyword ++ '(' :: after, []⟩ : Cursor).rest =
      (keyword ++ ['(']) ++ after := List.append_cons keyword '(' after
  obtain ⟨d', hd', hpasses'⟩ :=
    exists_results_of_isFree (isFree_callBody keywords) hd hpasses hrest
  have hproper : before.length < d'.position := by
    rw [hpasses'.position, List.length_append, List.length_singleton]
    exact Nat.lt_add_of_pos_right (Nat.succ_pos _)
  obtain ⟨m, hm, hstart, hstop⟩ :=
    exists_mem_findAll (mem_results_keywordCall_iff.mpr ⟨hprevious, hd'⟩) hproper
  refine ⟨m, hm, ?_⟩
  obtain ⟨before₂, keyword₂, after₂, hsplit, hstart₂, hstop₂, hcall₂⟩ := exists_isCallAt hm
  rw [hstart₂] at hstart
  rw [hstop₂] at hstop ⊢
  have hne {t : Text} (hword : ∀ c ∈ t, isWordChar c = true) : '(' ∉ t := by
    intro hparen
    exact absurd (hword '(' hparen) (by decide)
  have hkeyword := hne (hwords keyword hmem)
  have hkeyword₂ := hne (hwords keyword₂ hcall₂.mem)
  -- both parentheses are the first one behind the place of the call
  obtain ⟨z, rfl⟩ : before₂ <+: before :=
    List.prefix_of_prefix_length_le (hsplit ▸ List.prefix_append before₂ _)
      (List.prefix_append before _) hstart
  rw [List.append_assoc] at hsplit
  have hrest := List.append_cancel_left hsplit
  have hz : z <+: keyword₂ := by
    refine List.prefix_of_prefix_length_le (hrest ▸ List.prefix_append z _)
      (List.prefix_append keyword₂ _) ?_
    simp only [List.length_append] at hstop
    omega
  have hfirst : z ++ keyword = keyword₂ := by
    refine Text.eq_of_append_cons (fun hparen => ?_) hkeyword₂ ((List.append_assoc ..).trans hrest)
    rcases List.mem_append.mp hparen with hparen | hparen
    · exact hkeyword₂ (hz.subset hparen)
    · exact hkeyword hparen
  rw [← hfirst, List.append_assoc]

end Pattern

variable {r : OperatorSpacing} {line : Text}

theorem isSome_keyword_of_call (h : r.IsRegular) {before after : List Cell} {x : Cell}
    {first keyword : Text} (hcells : r.codeCells line = before ++ x :: after)
    (hparen : x.masked = '(') (hbefore : maskOf before = first ++ keyword)
    (hcall : IsCallAt r.table.controlKeywords first keyword) : x.keyword.isSome = true := by
  have hat := isAt_of_split hcells
  have hmasked : r.style.maskLiterals (r.style.splitComment line).1 =
      first ++ (keyword ++ '(' :: maskOf after) := by
    rw [← masked_codeCells, hcells, ← hparen, ← List.append_assoc, ← hbefore]
    exact List.map_append
  obtain ⟨m, hm, hstop⟩ := exists_mem_findAll_of_call hcall h.keywordChars (maskOf after)
  rw [← hmasked] at hm
  have hplace : m.stop - 1 = before.length := by
    rw [hstop, Nat.add_sub_cancel, ← hbefore, maskOf, List.length_map]
  rw [hat.keyword_eq, notProtected_of_paren h hcells hparen, if_neg Bool.false_ne_true]
  by_contra hnone
  rw [Bool.not_eq_true, Option.isSome_eq_false_iff, Option.isNone_iff_eq_none,
    List.lookup_eq_none_iff] at hnone
  have hne := hnone _ (List.mem_map_of_mem hm)
  rw [hplace] at hne
  simp at hne

/-- On the spaced line, no control keyword stands right before a parenthesis. -/
theorem findAll_spaced_eq_nil (h : r.IsRegular) (line : Text) :
    (keywordCall r.table.controlKeywords).findAll (maskOf (r.reading line).spaced) = [] := by
  refine List.eq_nil_iff_forall_not_mem.mpr fun m hm => ?_
  obtain ⟨first, keyword, last, hmasked, -, -, hcall⟩ := exists_isCallAt hm
  obtain ⟨firstCells, others, hspaced, rfl, hothers⟩ := maskOf_eq_append_iff.mp hmasked
  obtain ⟨keywordCells, others, rfl, rfl, hothers'⟩ := maskOf_eq_append_iff.mp hothers
  obtain ⟨x, lastCells, rfl, hparen, -⟩ := List.map_eq_cons_iff.mp hothers'
  have hsound := isSound_of_mem h line
  rw [Reading.spaced, ← List.append_assoc] at hspaced
  obtain ⟨front, p, back, inner, outer, hsplit, hcells, hbefore, -⟩ := exists_piece_of_split
    (isSound_spread hsound) (isSpaceOrTab_masked (gap_tail h _)) (by rw [hparen]; rfl) hspaced
  obtain ⟨front, p, back, hpieces, rfl, rfl, -⟩ := exists_split_of_spread hsplit
  have hfront : ∀ p ∈ front, p.IsSound := fun q hq => hsound q (by rw [hpieces]; simp [hq])
  have hp : p.IsSound := hsound p (by rw [hpieces]; simp)
  obtain ⟨rfl, rfl, -⟩ :=
    hp.single_of_mem hcells (Or.inr (by rw [hparen]; decide))
  replace hcells : p.cells = [x] := hcells
  replace hbefore : firstCells ++ keywordCells =
      join (spread false front) ++ p.newGap (endsSetOff false front) := by simpa using hbefore
  have hword : ∀ c ∈ backward keywordCells, isCallPart c = true := fun c hc => by
    rw [isCallPart, h.keywordChars _ hcall.mem c (List.mem_reverse.mp hc)]
    rfl
  have hrun : (backward (firstCells ++ keywordCells)).takeWhile isCallPart =
      backward keywordCells := by
    rw [backward_append, List.takeWhile_append_of_pos hword,
      takeWhile_backward_eq_nil_iff.mpr hcall.previous, List.append_nil]
  have hne : backward keywordCells ≠ [] :=
    backward_ne_nil fun hnil => (h.keywords _ hcall.mem).1 (by rw [hnil]; rfl)
  -- the keyword meets the parenthesis, and so it did before
  have hnil : p.newGap (endsSetOff false front) = [] := by
    by_contra hgap
    rw [hbefore, backward_append, takeWhile_backward_gap isWordClass_isCallPart hgap
      (isSpaceOrTab_masked (hp.newGap _))] at hrun
    exact hne hrun.symm
  obtain ⟨hgap, -, -, hnone⟩ := Piece.eq_nil_of_newGap hnil
  rw [hbefore, hnil, List.append_nil, takeWhile_backward_spread isWordClass_isCallPart hfront]
    at hrun
  obtain ⟨first, hfirst, hprevious⟩ := exists_run isCallPart (join front)
  rw [hrun, backward, List.reverse_reverse] at hfirst
  have hold := codeCells_eq_of_split h hpieces
  rw [hgap, List.append_nil, hcells, List.singleton_append] at hold
  have hsome := isSome_keyword_of_call h hold hparen hfirst
    ⟨hprevious, hcall.mem, hcall.exists_results⟩
  rw [Piece.keyword, hcells] at hnone
  simp only [List.head?_cons, Option.bind_some] at hnone
  rw [hnone] at hsome
  cases hsome

end OperatorSpacing

end LineLint
