import LineLint.OperatorSpacing
import LineLint.Proofs.Respaced
import LineLint.Proofs.TrimmedText
import Mathlib.Data.List.Chain

/-!
# Spaced operators

Rebuilding the cells of a line only respaces them. Blanks that were put out already may still be
taken back, when an operator follows them; what is left of the rebuild therefore either goes on
behind all that was put out, or behind what is left of it without the blanks at its end.
-/

namespace LineLint

namespace Cell

def anyShows (cells : List Cell) : Bool := cells.any fun cell => !isBlank cell.code

@[simp] theorem anyShows_append (cells more : List Cell) :
    anyShows (cells ++ more) = (anyShows cells || anyShows more) :=
  List.any_append

@[simp] theorem anyShows_singleton (cell : Cell) : anyShows [cell] = !isBlank cell.code :=
  Bool.or_false _

end Cell

open Cell (codes anyShows)

namespace OperatorSpacing

/-- Where protection starts and ends: a protected blank is followed by a protected character, and
what starts a protected part is neither a blank nor goes on with a token. -/
structure Adjoins (tokens : List Text) (c d : Cell) : Prop where
  of_blank : c.isProtected = true → isSpaceOrTab c.code = true → d.isProtected = true
  of_start : c.isProtected = false → d.isProtected = true →
    isSpaceOrTab d.masked = false ∧ ∀ token ∈ tokens, ¬[c.masked, d.masked] <:+: token

structure IsSpaceable (tokens : List Text) (cells : List Cell) : Prop where
  masked_eq : ∀ c ∈ cells, c.isProtected = false → c.masked = c.code
  adjoins : cells.IsChain (Adjoins tokens)
  shows : ∀ before c after, cells = before ++ c :: after → isBlank c.masked = false →
    anyShows (before ++ [c]) = true
  keyword : ∀ before c after, cells = before ++ c :: after → c.keyword.isSome = true →
    c.IsMark ∧ anyShows before = true

def ArePlain (tokens : List Text) : Prop :=
  ∀ token ∈ tokens, token ≠ [] ∧ ∀ c ∈ token, isBlank c = false

section Cells

variable {tokens : List Text} {token : Text} {cells part : List Cell} {c : Cell}

theorem notProtected_of_token (htoken : token ∈ tokens)
    (hchain : (c :: part).IsChain (Adjoins tokens)) (hc : c.isProtected = false)
    (hwithin : (c :: part).map (·.masked) <:+: token) : ∀ d ∈ part, d.isProtected = false := by
  induction part generalizing c with
  | nil => exact List.forall_mem_nil _
  | cons d part ih =>
      obtain ⟨hadjoins, hrest⟩ := List.isChain_cons_cons.mp hchain
      have hpair : [c.masked, d.masked] <:+: token :=
        (List.prefix_append [c.masked, d.masked] (part.map Cell.masked)).isInfix.trans hwithin
      have hd : d.isProtected = false := by
        by_contra hprotected
        exact (hadjoins.of_start hc (by simpa using hprotected)).2 token htoken hpair
      have htail : (d :: part).map (·.masked) <:+: token :=
        (List.suffix_cons c.masked _).isInfix.trans hwithin
      exact List.forall_mem_cons.mpr ⟨hd, ih hrest hd htail⟩

theorem notProtected_of_blanks (hchain : (c :: part).IsChain (Adjoins tokens))
    (hc : c.isProtected = false) (hblanks : ∀ d ∈ part, isSpaceOrTab d.masked = true) :
    ∀ d ∈ part, d.isProtected = false := by
  induction part generalizing c with
  | nil => exact List.forall_mem_nil _
  | cons d part ih =>
      obtain ⟨hadjoins, hrest⟩ := List.isChain_cons_cons.mp hchain
      obtain ⟨hblank, hothers⟩ := List.forall_mem_cons.mp hblanks
      have hd : d.isProtected = false := by
        by_contra hprotected
        rw [(hadjoins.of_start hc (by simpa using hprotected)).1] at hblank
        cases hblank
      exact List.forall_mem_cons.mpr ⟨hd, ih hrest hd hothers⟩

structure IsToken (token : Text) (part : List Cell) : Prop where
  ne_nil : part ≠ []
  isMark : ∀ d ∈ part, d.IsMark
  codes_eq : codes part = token
  masked_eq : part.map (·.masked) = token

theorem IsToken.append_drop (h : IsToken token ((c :: part).take token.length)) :
    (c :: part).take token.length ++ part.drop (token.length - 1) = c :: part := by
  obtain ⟨n, hn⟩ : ∃ n, token.length = n + 1 := by
    refine Nat.exists_eq_add_one.mpr (Nat.pos_of_ne_zero fun hzero => h.ne_nil ?_)
    rw [hzero, List.take_zero]
  rw [hn, Nat.add_sub_cancel, ← List.drop_succ_cons, List.take_append_drop]

theorem IsSpaceable.isToken (h : IsSpaceable tokens cells) (hplain : ArePlain tokens)
    {before after : List Cell} (hcells : cells = before ++ c :: after)
    (hc : c.isProtected = false) (hat : operatorAt? tokens (c :: after) = some token) :
    IsToken token ((c :: after).take token.length) := by
  have htoken : token ∈ tokens := List.mem_of_find?_eq_some hat
  have hread : ((c :: after).take token.length).map (·.masked) = token := by
    simpa using List.find?_some hat
  obtain ⟨hne, hshows⟩ := hplain token htoken
  obtain ⟨n, hn⟩ : ∃ n, token.length = n + 1 :=
    ⟨token.length - 1, by have := List.length_pos_iff.mpr hne; omega⟩
  have hwithin : (c :: after).take token.length <:+: cells := by
    rw [hcells]
    exact (List.take_prefix _ _).isInfix.trans (List.suffix_append _ _).isInfix
  have hchain := List.IsChain.infix h.adjoins hwithin
  have hnot : ∀ d ∈ (c :: after).take token.length, d.isProtected = false := by
    rw [hn, List.take_succ_cons] at hread hchain ⊢
    have hwhole : (c :: after.take n).map (·.masked) <:+: token := ⟨[], [], by simpa using hread⟩
    exact List.forall_mem_cons.mpr ⟨hc, notProtected_of_token htoken hchain hc hwhole⟩
  have hcodes : codes ((c :: after).take token.length) = token := by
    conv_rhs => rw [← hread]
    refine List.map_congr_left fun d hd => ?_
    exact (h.masked_eq d (hwithin.subset hd) (hnot d hd)).symm
  refine ⟨?_, fun d hd => ⟨hnot d hd, ?_⟩, hcodes, hread⟩
  · rw [hn, List.take_succ_cons]
    exact List.cons_ne_nil _ _
  · have hmem : d.code ∈ codes ((c :: after).take token.length) := List.mem_map_of_mem hd
    rw [hcodes] at hmem
    exact hshows _ hmem

theorem IsSpaceable.isGap {before gap after : List Cell} (hpart : IsToken token part)
    (h : IsSpaceable tokens (before ++ (part ++ (gap ++ after))))
    (hblanks : ∀ d ∈ gap, isSpaceOrTab d.masked = true) : ∀ d ∈ gap, d.IsGap := by
  obtain ⟨front, mark, rfl⟩ := (List.eq_nil_or_concat part).resolve_left hpart.ne_nil
  rw [List.concat_eq_append] at h hpart
  have hcells : before ++ ((front ++ [mark]) ++ (gap ++ after)) =
      (before ++ front) ++ (mark :: gap) ++ after := by simp
  rw [hcells] at h
  have hmark : mark.isProtected = false := (hpart.isMark mark (by simp)).notProtected
  have hnot : ∀ d ∈ gap, d.isProtected = false :=
    notProtected_of_blanks
      ( List.IsChain.infix h.adjoins (List.infix_append _ _ _)) hmark hblanks
  intro d hd
  refine ⟨hnot d hd, ?_⟩
  rw [← h.masked_eq d (by simp [hd]) (hnot d hd)]
  exact hblanks d hd

/-- Behind a protected blank, protection goes on. -/
theorem IsSpaceable.isProtected_of_mem_head? {before after : List Cell}
    (h : IsSpaceable tokens (before ++ c :: after)) (hc : c.isProtected = true)
    (hblank : isSpaceOrTab c.code = true) : ∀ d ∈ after.head?, d.isProtected = true := by
  cases after with
  | nil => simp
  | cons d after =>
      have hadjoins := (List.isChain_cons_cons.mp h.adjoins.right_of_append).1
      intro e he
      obtain rfl : d = e := by simpa using he
      exact hadjoins.of_blank hc hblank

end Cells

section Chunks

variable {s : Rebuilt} {chunk : Text} {chunks : List Text}

theorem text_push (s : Rebuilt) (chunk : Text) : (s.push chunk).text = s.text ++ chunk := by
  simp [Rebuilt.text, Rebuilt.push]

def IsMore (chunk : Text) : Prop := ∀ c, chunk = [c] → isSpaceOrTab c = false

theorem dropBlankChunks_cons_of_isMore (h : IsMore chunk) :
    Rebuilt.dropBlankChunks (chunk :: chunks) = chunk :: chunks := by
  have hspace : chunk ≠ [' '] := fun hc => Bool.noConfusion (h ' ' hc)
  have htab : chunk ≠ ['\t'] := fun hc => Bool.noConfusion (h '\t' hc)
  exact List.dropWhile_cons_of_neg (by simp [hspace, htab])

theorem dropBlankChunks_cons_of_isSpaceOrTab {c : Char} (h : isSpaceOrTab c = true) :
    Rebuilt.dropBlankChunks ([c] :: chunks) = Rebuilt.dropBlankChunks chunks :=
  List.dropWhile_cons_of_pos (by simpa [isSpaceOrTab] using h)

/-- What is put out, without the blanks at its end. -/
def keptText (s : Rebuilt) : Text := (Rebuilt.dropBlankChunks s.chunks).reverse.flatten

theorem keptText_push_of_isMore (h : IsMore chunk) : keptText (s.push chunk) = s.text ++ chunk := by
  rw [← text_push, keptText, Rebuilt.push, dropBlankChunks_cons_of_isMore h]
  rfl

theorem keptText_push_of_isSpaceOrTab {c : Char} (h : isSpaceOrTab c = true) :
    keptText (s.push [c]) = keptText s := by
  rw [keptText, Rebuilt.push, dropBlankChunks_cons_of_isSpaceOrTab h]
  rfl

end Chunks

/-- What a rebuild makes of the cells that are left: it goes on behind what was put out, or, if an
operator comes next, behind what is left of it without the blanks at its end. -/
inductive Continues (s : Rebuilt) (seen : Bool) (cells : List Cell) (new : Text) : Prop where
  | behind (t : Text) (hnew : new = s.text ++ t) (ht : Respaced seen cells t)
  | back (t : Text) (hnew : new = keptText s ++ t) (hseen : seen = true)
      (hhead : ∃ c ∈ cells.head?, c.isProtected = false)
      (ht : ∀ gap : List Cell, (∀ c ∈ gap, c.IsGap) → Respaced true (gap ++ cells) t)

namespace Continues

variable {s : Rebuilt} {seen : Bool} {cells rest : List Cell} {cell : Cell} {new chunk : Text}

theorem exists_of_isMore (h : Continues (s.push chunk) seen cells new) (hchunk : IsMore chunk) :
    ∃ t, new = s.text ++ (chunk ++ t) ∧ Respaced seen cells t := by
  cases h with
  | behind t hnew ht => exact ⟨t, by rw [hnew, text_push, List.append_assoc], ht⟩
  | back t hnew hseen _ ht =>
      refine ⟨t, by rw [hnew, keptText_push_of_isMore hchunk, List.append_assoc], ?_⟩
      rw [hseen]
      exact ht [] (List.forall_mem_nil _)

theorem of_copy (hnext : cell.isProtected = true → isSpaceOrTab cell.code = true →
      ∀ d ∈ rest.head?, d.isProtected = true)
    (h : Continues (s.push [cell.code]) (seen || !isBlank cell.code) rest new) :
    Continues s seen (cell :: rest) new := by
  by_cases hspace : isSpaceOrTab cell.code = true
  · cases h with
    | behind t hnew ht =>
        exact .behind (cell.code :: t) (by rw [hnew, text_push, List.append_assoc]; rfl) (.copy ht)
    | back t hnew hseen hhead ht =>
        rw [Text.isBlank_of_isSpaceOrTab hspace, Bool.not_true, Bool.or_false] at hseen
        rw [keptText_push_of_isSpaceOrTab hspace] at hnew
        have hcell : cell.isProtected = false := by
          by_contra hprotected
          obtain ⟨d, hd, hnot⟩ := hhead
          rw [hnext (by simpa using hprotected) hspace d hd] at hnot
          cases hnot
        refine .back t hnew hseen ⟨cell, rfl, hcell⟩ fun gap hgap => ?_
        have hlonger : ∀ c ∈ gap ++ [cell], c.IsGap :=
          List.forall_mem_append.mpr ⟨hgap, List.forall_mem_singleton.mpr ⟨hcell, hspace⟩⟩
        simpa using ht (gap ++ [cell]) hlonger
  · have hchunk : IsMore [cell.code] := by
      intro c hc
      rw [← (List.cons.inj hc).1]
      simpa using hspace
    obtain ⟨t, hnew, ht⟩ := h.exists_of_isMore hchunk
    exact .behind (cell.code :: t) hnew (.copy ht)

theorem of_startCell (hkeyword : cell.keyword.isSome = true → cell.IsMark ∧ seen = true)
    (h : Continues (startCell s cell) seen (cell :: rest) new) :
    Continues s seen (cell :: rest) new := by
  unfold startCell at h
  split at h
  · rename_i keyword hsome
    obtain ⟨hmark, rfl⟩ := hkeyword (by rw [hsome]; rfl)
    cases h with
    | behind t hnew ht =>
        refine .behind (' ' :: t) (hnew.trans ?_) (.before (List.forall_mem_nil _) hmark ht)
        change (s.push [' ']).text ++ t = _
        rw [text_push, List.append_assoc]
        rfl
    | back t hnew hseen hhead ht =>
        refine .back t (hnew.trans ?_) hseen hhead ht
        change keptText (s.push [' ']) ++ t = _
        rw [keptText_push_of_isSpaceOrTab rfl]
  · exact h

variable {token : Text} {part gap : List Cell}

theorem isMore_of_isToken (hpart : IsToken token part) : IsMore token := by
  rintro c rfl
  obtain ⟨mark, hmark⟩ := List.exists_mem_of_ne_nil part hpart.ne_nil
  have hcode : mark.code ∈ codes part := List.mem_map_of_mem hmark
  rw [hpart.codes_eq, List.mem_singleton] at hcode
  by_contra hspace
  have hblank := Text.isBlank_of_isSpaceOrTab (by simpa using hspace)
  rw [← hcode, (hpart.isMark mark hmark).notBlank] at hblank
  cases hblank

theorem of_token (hpart : IsToken token part)
    (h : Continues (s.push token) (seen || anyShows part) rest new) :
    Continues s seen (part ++ rest) new := by
  obtain ⟨t, hnew, ht⟩ := h.exists_of_isMore (isMore_of_isToken hpart)
  refine .behind (codes part ++ t) ?_ (.codes_append ht)
  rw [hnew, hpart.codes_eq]

theorem head?_of_isToken (hpart : IsToken token part) (rest : List Cell) :
    ∃ c ∈ (part ++ rest).head?, c.isProtected = false := by
  obtain ⟨mark, others, rfl⟩ := List.exists_cons_of_ne_nil hpart.ne_nil
  exact ⟨mark, rfl, (hpart.isMark mark List.mem_cons_self).notProtected⟩

theorem of_spacedBefore {s' : Rebuilt} (hs : s'.text = keptText s) (hpart : IsToken token part)
    (h : Continues (s'.push (' ' :: token)) (true || anyShows part) rest new) :
    Continues s true (part ++ rest) new := by
  have hchunk : IsMore (' ' :: token) := by
    rintro c hc
    obtain ⟨-, rfl⟩ := List.cons.inj hc
    exact absurd (List.map_eq_nil_iff.mp hpart.codes_eq) hpart.ne_nil
  obtain ⟨t, hnew, ht⟩ := h.exists_of_isMore hchunk
  refine .back (' ' :: token ++ t) (by rw [hnew, hs]) rfl (head?_of_isToken hpart rest)
    fun gap hgap => ?_
  rw [List.cons_append, ← hpart.codes_eq]
  exact .space_cons hgap hpart.ne_nil hpart.isMark (.codes_append ht)

theorem of_spaced {s' : Rebuilt} (hs : s'.text = keptText s) (hpart : IsToken token part)
    (hgap : ∀ c ∈ gap, c.IsGap)
    (h : Continues (s'.push (' ' :: token ++ [' '])) true rest new) :
    Continues s true (part ++ (gap ++ rest)) new := by
  have hchunk : IsMore (' ' :: token ++ [' ']) := by
    rintro c hc
    have hlength := congrArg List.length hc
    simp at hlength
  obtain ⟨t, hnew, ht⟩ := h.exists_of_isMore hchunk
  refine .back (' ' :: (token ++ ' ' :: t)) ?_ rfl (head?_of_isToken hpart _) fun gap' hgap' => ?_
  · rw [hnew, hs]
    simp
  · rw [← hpart.codes_eq]
    exact .space_cons hgap' hpart.ne_nil hpart.isMark
      (.codes_append_space_cons hpart.ne_nil hpart.isMark hgap ht)

end Continues

section Rebuild

variable {tokens : List Text} {token reversed new : Text} {cell : Cell}
  {cells part passed rest : List Cell} {s : Rebuilt}

/-- A token that is no sign before an operand follows a character that is no blank. -/
theorem anyShows_of_not_expectsOperand (h : IsSpaceable tokens (passed ++ cells))
    (hoperand : expectsOperand (passed.map (·.masked)).reverse = false) :
    anyShows passed = true := by
  have hexists : ∃ c ∈ (passed.map (·.masked)).reverse, isBlank c = false := by
    by_contra hnone
    have hnil : (passed.map (·.masked)).reverse.dropWhile isBlank = [] := by
      refine List.dropWhile_eq_nil_iff.mpr fun c hc => ?_
      by_contra hblank
      exact hnone ⟨c, hc, by simpa using hblank⟩
    rw [expectsOperand, hnil] at hoperand
    cases hoperand
  obtain ⟨c, hc, hblank⟩ := hexists
  obtain ⟨cell, hcell, rfl⟩ := List.mem_map.mp (List.mem_reverse.mp hc)
  obtain ⟨before, after, rfl⟩ := List.append_of_mem hcell
  have hshows := h.shows before cell (after ++ cells) (by simp) hblank
  rw [show before ++ cell :: after = before ++ [cell] ++ after by simp, Cell.anyShows_append,
    hshows, Bool.true_or]

theorem continues_cons (hcells : IsSpaceable tokens (passed ++ cell :: rest))
    (h : Continues ((startCell s cell).push [cell.code]) (anyShows (passed ++ [cell])) rest new) :
    Continues s (anyShows passed) (cell :: rest) new := by
  rw [Cell.anyShows_append, Cell.anyShows_singleton] at h
  exact .of_startCell (hcells.keyword passed cell rest rfl)
    (.of_copy hcells.isProtected_of_mem_head? h)

theorem reverse_map_masked (hpart : IsToken token part)
    (hreversed : reversed = (passed.map (·.masked)).reverse) :
    token.reverse ++ reversed = ((passed ++ part).map (·.masked)).reverse := by
  rw [List.map_append, List.reverse_append, hpart.masked_eq, hreversed]

theorem split_of_operatorAt? (hplain : ArePlain tokens)
    (hcells : IsSpaceable tokens (passed ++ cell :: rest)) (hcell : ¬cell.isProtected = true)
    (hat : operatorAt? tokens (cell :: rest) = some token) :
    let part := (cell :: rest).take token.length
    let after := rest.drop (token.length - 1)
    IsToken token part ∧ part ++ after = cell :: rest ∧
      IsSpaceable tokens (passed ++ part ++ after) := by
  intro part after
  have htoken : IsToken token part := hcells.isToken hplain rfl (by simpa using hcell) hat
  have hsplit : part ++ after = cell :: rest := htoken.append_drop
  exact ⟨htoken, hsplit, by rwa [List.append_assoc, hsplit]⟩

theorem expectsOperand_of_not_keeps {r : OperatorSpacing} {depth : Nat} {unary : Bool}
    (h : ¬(r.keeps token reversed depth rest || unary) = true) :
    expectsOperand reversed = false := by
  rw [keeps] at h
  simp only [Bool.or_eq_true, not_or] at h
  simpa using h.1.1.2

/-- A rebuild that has come to some cells goes on to respace them. -/
theorem continues_rebuild {r : OperatorSpacing} (hplain : ArePlain tokens) {depth : Nat}
    (hcells : IsSpaceable tokens (passed ++ cells))
    (hreversed : reversed = (passed.map (·.masked)).reverse) :
    Continues s (anyShows passed) cells (rebuild r tokens reversed depth s cells).text := by
  fun_induction rebuild r tokens reversed depth s cells generalizing passed with
  | case1 => exact .behind [] (List.append_nil _).symm .nil
  | case2 reversed depth s cell rest =>
      rename_i ih
      exact continues_cons hcells (ih (by simpa using hcells) (by simp [hreversed]))
  | case3 reversed depth s cell rest =>
      rename_i ih
      exact continues_cons hcells (ih (by simpa using hcells) (by simp [hreversed]))
  | case4 reversed depth s cell rest _ hprotected _ operator hat token after =>
      rename_i ih
      obtain ⟨htoken, hsplit, hgone⟩ := split_of_operatorAt? hplain hcells hprotected hat
      have hcode : token.map (·.code) = operator := htoken.codes_eq
      have hrest := ih hgone (reverse_map_masked htoken hreversed)
      rw [hcode, Cell.anyShows_append] at hrest
      rw [hcode]
      refine .of_startCell (hcells.keyword passed cell rest rfl) ?_
      rw [← hsplit]
      exact .of_token htoken hrest
  | case5 reversed depth s cell rest _ hprotected _ operator hat after =>
      rename_i hspaced _ _ _ ih
      obtain ⟨htoken, hsplit, hgone⟩ := split_of_operatorAt? hplain hcells hprotected hat
      have hseen : anyShows passed = true :=
        anyShows_of_not_expectsOperand hcells (hreversed ▸ expectsOperand_of_not_keeps hspaced)
      have hrest := ih hgone (reverse_map_masked htoken hreversed)
      refine .of_startCell (hcells.keyword passed cell rest rfl) ?_
      rw [Cell.anyShows_append, hseen] at hrest
      rw [hseen, ← hsplit]
      exact .of_spacedBefore rfl htoken hrest
  | case6 reversed depth s cell rest _ hprotected _ operator hat after =>
      rename_i hspaced _ blanks following _ ih
      obtain ⟨htoken, hsplit, hgone⟩ := split_of_operatorAt? hplain hcells hprotected hat
      have hseen : anyShows passed = true :=
        anyShows_of_not_expectsOperand hcells (hreversed ▸ expectsOperand_of_not_keeps hspaced)
      have hafter : blanks ++ following = after := List.takeWhile_append_dropWhile
      change _ ++ after = _ at hsplit
      change IsSpaceable tokens (_ ++ after) at hgone
      rw [← hafter] at hsplit hgone
      have hgap : ∀ c ∈ blanks, c.IsGap := by
        rw [List.append_assoc] at hgone
        refine hgone.isGap htoken fun c hc => ?_
        have hblank := List.mem_takeWhile_imp hc
        exact hblank
      rw [← List.append_assoc] at hgone
      have hrest := ih hgone (by
        rw [List.map_append, List.reverse_append, ← reverse_map_masked htoken hreversed])
      refine .of_startCell (hcells.keyword passed cell rest rfl) ?_
      rw [Cell.anyShows_append, Cell.anyShows_append, hseen, Bool.true_or, Bool.true_or] at hrest
      rw [hseen, ← hsplit]
      exact .of_spaced rfl htoken hgap hrest

end Rebuild

end OperatorSpacing

end LineLint
