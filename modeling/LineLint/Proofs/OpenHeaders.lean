import LineLint.Proofs.ScannedLines
import LineLint.Proofs.SoundStatements
import LineLint.PythonLanguage

/-!
# Headers with open brackets

The brackets of a text are matched by kind: a closing bracket closes the innermost open one of its
kind, and is stray if there is none. Two scans read a header for brackets. One counts round and
square ones to tell whether the header goes on with the next line; the other counts braces as well
to tell whether a colon stands outside brackets. A header that only leaves braces open is therefore
taken for a whole one.
-/

namespace LineLint

/-- The brackets that are open behind a text, the innermost first, and the closing ones that have
closed none. -/
structure Brackets where
  opened : Text := []
  stray : Text := []

namespace Brackets

variable {b : Brackets} {c opener closer : Char}

def kinds : List (Char × Char) := [('(', ')'), ('[', ']'), ('{', '}')]

def openerOf? (c : Char) : Option Char :=
  if c = ')' then some '(' else if c = ']' then some '[' else if c = '}' then some '{' else none

def step (b : Brackets) (c : Char) : Brackets :=
  match openerOf? c with
  | some opener =>
      if opener ∈ b.opened then { b with opened := b.opened.erase opener }
      else { b with stray := c :: b.stray }
  | none => if ['(', '[', '{'].contains c then { b with opened := c :: b.opened } else b

def after (b : Brackets) (t : Text) : Brackets := t.foldl step b

def ofText (t : Text) : Brackets := after {} t

@[simp] theorem after_nil (b : Brackets) : b.after [] = b := rfl

@[simp] theorem after_cons (b : Brackets) (c : Char) (t : Text) :
    b.after (c :: t) = (b.step c).after t := rfl

theorem opened_step_subset (h : b.opened ⊆ ['(', '[', '{']) (c : Char) :
    (b.step c).opened ⊆ ['(', '[', '{'] := by
  unfold step
  split
  · split_ifs
    · exact List.Subset.trans List.erase_subset h
    · exact h
  · split_ifs with hopens
    · exact List.cons_subset.mpr ⟨List.contains_iff_mem.mp hopens, h⟩
    · exact h

theorem opened_after_subset (h : b.opened ⊆ ['(', '[', '{']) (t : Text) :
    (b.after t).opened ⊆ ['(', '[', '{'] := by
  induction t generalizing b with
  | nil => exact h
  | cons c t ih => exact ih (opened_step_subset h c)

section Counting

theorem openerOf?_eq_some_iff : openerOf? c = some opener ↔ (opener, c) ∈ kinds := by
  simp only [kinds, List.mem_cons, Prod.mk.injEq, List.not_mem_nil, or_false]
  constructor
  · intro h
    unfold openerOf? at h
    split_ifs at h with hround hsquare hbrace
    · exact Or.inl ⟨(Option.some.inj h).symm, hround⟩
    · exact Or.inr (Or.inl ⟨(Option.some.inj h).symm, hsquare⟩)
    · exact Or.inr (Or.inr ⟨(Option.some.inj h).symm, hbrace⟩)
  · rintro (⟨rfl, rfl⟩ | ⟨rfl, rfl⟩ | ⟨rfl, rfl⟩) <;> rfl

/-- Either bracket tells the kind, and no closing one opens anything. -/
theorem eq_iff_of_mem_kinds {opener' closer' : Char} (h : (opener, closer) ∈ kinds)
    (h' : (opener', closer') ∈ kinds) :
    (opener' = opener ↔ closer' = closer) ∧ closer' ≠ opener := by
  simp only [kinds, List.mem_cons, Prod.mk.injEq, List.not_mem_nil, or_false] at h h'
  rcases h with ⟨rfl, rfl⟩ | ⟨rfl, rfl⟩ | ⟨rfl, rfl⟩ <;>
    rcases h' with ⟨rfl, rfl⟩ | ⟨rfl, rfl⟩ | ⟨rfl, rfl⟩ <;> decide

theorem contains_opener (h : (opener, closer) ∈ kinds) :
    ['(', '[', '{'].contains opener = true := by
  simp only [kinds, List.mem_cons, Prod.mk.injEq, List.not_mem_nil, or_false] at h
  rcases h with ⟨rfl, rfl⟩ | ⟨rfl, rfl⟩ | ⟨rfl, rfl⟩ <;> decide

/-- The open brackets of a kind, less the stray ones. -/
def net (b : Brackets) (kind : Char × Char) : Int :=
  (b.opened.count kind.1 : Int) - b.stray.count kind.2

theorem net_step {kind : Char × Char} (hkind : kind ∈ kinds) (b : Brackets) (c : Char) :
    (b.step c).net kind =
      b.net kind + ((if c = kind.1 then 1 else 0) - if c = kind.2 then 1 else 0) := by
  obtain ⟨opener, closer⟩ := kind
  unfold step
  split
  · rename_i opener' hcloses
    obtain ⟨hsame, hopener⟩ := eq_iff_of_mem_kinds hkind (openerOf?_eq_some_iff.mp hcloses)
    simp only [if_neg hopener]
    by_cases hmem : opener' ∈ b.opened
    · have hpos := List.count_pos_iff.mpr hmem
      rw [if_pos hmem]
      by_cases heq : opener' = opener
      · simp only [net, if_pos (hsame.mp heq), ← heq, List.count_erase_self]
        omega
      · simp only [net, if_neg (mt hsame.mpr heq), List.count_erase_of_ne (Ne.symm heq)]
        omega
    · rw [if_neg hmem]
      simp only [net, List.count_cons, beq_iff_eq]
      split_ifs <;> omega
  · rename_i hnone
    have hcloser : c ≠ closer := by
      rintro rfl
      rw [openerOf?_eq_some_iff.mpr hkind] at hnone
      cases hnone
    simp only [if_neg hcloser]
    split_ifs with hopens heq heq
    · simp only [net, heq, List.count_cons_self]
      omega
    · simp only [net, List.count_cons_of_ne heq]
      omega
    · rw [heq] at hopens
      exact absurd (contains_opener hkind) hopens
    · omega

theorem net_after {kind : Char × Char} (hkind : kind ∈ kinds) (b : Brackets) (t : Text) :
    (b.after t).net kind = b.net kind + ((t.count kind.1 : Int) - t.count kind.2) := by
  induction t generalizing b with
  | nil => simp
  | cons c t ih =>
      rw [after_cons, ih, net_step hkind]
      simp only [List.count_cons, beq_iff_eq]
      split_ifs <;> omega

theorem bracketBalance_eq (t : Text) : LineScan.bracketBalance t =
    (ofText t).net ('(', ')') + (ofText t).net ('[', ']') := by
  rw [ofText, net_after (by decide), net_after (by decide)]
  simp [net, LineScan.bracketBalance]
  omega

end Counting

section Colons

def depth (b : Brackets) : Int := (b.opened.length : Int) - b.stray.length

theorem openerOf?_eq_none (h : [')', ']', '}'].contains c = false) : openerOf? c = none := by
  simp only [List.contains_cons, List.contains_nil, Bool.or_false, Bool.or_eq_false_iff,
    beq_eq_false_iff_ne] at h
  rw [openerOf?, if_neg h.1, if_neg h.2.1, if_neg h.2.2]

theorem depth_step_of_opens (b : Brackets) (h : ['(', '[', '{'].contains c = true) :
    (b.step c).depth = b.depth + 1 := by
  have hnone : openerOf? c = none := by
    apply openerOf?_eq_none
    simp only [List.contains_iff_mem, List.mem_cons, List.not_mem_nil, or_false] at h
    rcases h with rfl | rfl | rfl <;> decide
  rw [step, hnone]
  simp only [if_pos h, depth, List.length_cons]
  omega

theorem depth_step_of_closes (b : Brackets) (h : [')', ']', '}'].contains c = true) :
    (b.step c).depth = b.depth - 1 := by
  obtain ⟨opener, hsome⟩ : ∃ opener, openerOf? c = some opener := by
    simp only [List.contains_iff_mem, List.mem_cons, List.not_mem_nil, or_false] at h
    rcases h with rfl | rfl | rfl <;> exact ⟨_, rfl⟩
  rw [step, hsome]
  simp only
  split_ifs with hmem
  · have hpos := List.length_pos_of_mem hmem
    simp only [depth, List.length_erase_of_mem hmem]
    omega
  · simp only [depth, List.length_cons]
    omega

theorem step_of_other (b : Brackets) (hopens : ['(', '[', '{'].contains c = false)
    (hcloses : [')', ']', '}'].contains c = false) : b.step c = b := by
  rw [step, openerOf?_eq_none hcloses]
  exact if_neg (by rw [hopens]; exact Bool.false_ne_true)

/-- A colon that is not part of a walrus stands where no more brackets are open than are stray. -/
def HasOuterColon (b : Brackets) (t : Text) : Prop :=
  ∃ before rest, t = before ++ ':' :: rest ∧ rest.head? ≠ some '=' ∧ (b.after before).depth = 0

theorem hasOuterColon_cons (b : Brackets) (c : Char) (t : Text) : b.HasOuterColon (c :: t) ↔
    (c = ':' ∧ t.head? ≠ some '=' ∧ b.depth = 0) ∨ (b.step c).HasOuterColon t := by
  constructor
  · rintro ⟨_ | ⟨x, before⟩, rest, hsplit, hwalrus, hdepth⟩
    · obtain ⟨rfl, rfl⟩ := List.cons.inj hsplit
      exact Or.inl ⟨rfl, hwalrus, hdepth⟩
    · obtain ⟨rfl, rfl⟩ := List.cons.inj hsplit
      exact Or.inr ⟨before, rest, rfl, hwalrus, hdepth⟩
  · rintro (⟨rfl, hwalrus, hdepth⟩ | ⟨before, rest, rfl, hwalrus, hdepth⟩)
    · exact ⟨[], t, rfl, hwalrus, hdepth⟩
    · exact ⟨c :: before, rest, rfl, hwalrus, hdepth⟩

theorem hasColon_iff (b : Brackets) (t : Text) :
    BlockHeader.hasColon b.depth t = true ↔ b.HasOuterColon t := by
  induction t generalizing b with
  | nil =>
      refine iff_of_false Bool.false_ne_true ?_
      rintro ⟨before, rest, hnil, -⟩
      cases before <;> cases hnil
  | cons c t ih =>
      have hne {cs : List Char} (hcolon : cs.contains ':' = false) (hc : cs.contains c = true) :
          c ≠ ':' := by
        rintro rfl
        rw [hcolon] at hc
        cases hc
      rw [hasOuterColon_cons, ← ih, BlockHeader.hasColon]
      split_ifs with hopens hcloses
      · rw [depth_step_of_opens b hopens]
        simp [hne rfl hopens]
      · rw [depth_step_of_closes b hcloses]
        simp [hne rfl hcloses]
      · rw [step_of_other b (Bool.not_eq_true _ ▸ hopens) (Bool.not_eq_true _ ▸ hcloses)]
        simp only [Bool.or_eq_true, Bool.and_eq_true, beq_iff_eq, bne_iff_ne]
        tauto

end Colons

end Brackets

section Headers

variable {style : LiteralStyle} {lines : List Text} {line new : Text} {i : Nat}

theorem BlockHeader.mem_all_iff {h : BlockHeader} : h ∈ all style lines ↔
    ∃ i line, lines[i]? = some line ∧ (LineScan.continued style lines)[i]? = some false ∧
      ofLine? style i line = some h := by
  simp only [all, List.mem_filterMap, Prod.exists, List.mem_zipIdx_iff_getElem?,
    List.getElem?_zip_eq_some]
  constructor
  · rintro ⟨line, continued, i, ⟨hline, hcontinued⟩, hheader⟩
    split_ifs at hheader with hgoes
    rw [Bool.not_eq_true] at hgoes
    exact ⟨i, line, hline, hgoes ▸ hcontinued, hheader⟩
  · rintro ⟨i, line, hline, hcontinued, hheader⟩
    exact ⟨line, false, i, ⟨hline, hcontinued⟩, hheader⟩

theorem BlockHeader.ofLine?_eq_some_iff {h : BlockHeader} : ofLine? style i line = some h ↔
    ∃ m, pattern.matchStart? (Text.trim (style.codeMask line)) = some m ∧
      LineScan.bracketBalance (Text.trim (style.codeMask line)) ≤ 0 ∧
      (Text.trim (style.codeMask line)).getLast? ≠ some '\\' ∧
      h = ⟨i, m.text "keyword", Text.trim (style.codeMask line)⟩ := by
  constructor
  · intro hheader
    obtain ⟨m, hm, hheader⟩ := Option.bind_eq_some_iff.mp hheader
    split_ifs at hheader with hgoes
    simp only [Bool.or_eq_true, decide_eq_true_eq, beq_iff_eq, not_or, not_lt] at hgoes
    exact ⟨m, hm, hgoes.1, hgoes.2, (Option.some.inj hheader).symm⟩
  · rintro ⟨m, hm, hbalance, hlast, rfl⟩
    refine Option.bind_eq_some_iff.mpr ⟨m, hm, ?_⟩
    rw [if_neg]
    simp only [Bool.or_eq_true, decide_eq_true_eq, beq_iff_eq, not_or, not_lt]
    exact ⟨hbalance, hlast⟩

namespace MissingColon

open BlockHeader (hasColon conditionKeywords)

/-- A line is reported if it is a header without a colon, and not a bare keyword. -/
theorem replaces_iff : (rule style).Replaces lines i new ↔
    ∃ line h, lines[i]? = some line ∧ (LineScan.continued style lines)[i]? = some false ∧
      BlockHeader.ofLine? style i line = some h ∧ hasColon 0 h.code = false ∧
      ¬(h.keyword ∈ conditionKeywords ∧ h.code = h.keyword) ∧ new = addColon style line := by
  refine (Rule.replaces_ofFindings_iff (MissingColon.isSound style)).trans ?_
  constructor
  · rintro ⟨found, hfound, f, hf, rfl, hnew⟩
    obtain rfl : check style lines = found := Except.ok.inj hfound
    obtain ⟨h, hmem, hreport⟩ := List.mem_filterMap.mp hf
    obtain ⟨i, line, hline, hcontinued, hheader⟩ := BlockHeader.mem_all_iff.mp hmem
    obtain ⟨m, -, -, -, rfl⟩ := BlockHeader.ofLine?_eq_some_iff.mp hheader
    split_ifs at hreport with hskip
    obtain rfl := Option.some.inj hreport
    simp only [Bool.or_eq_true, Bool.and_eq_true, List.contains_iff_mem, beq_iff_eq, not_or,
      Bool.not_eq_true] at hskip
    refine ⟨line, _, hline, hcontinued, hheader, hskip.1, hskip.2, ?_⟩
    rw [← Option.some.inj hnew, List.getD_eq_getElem?_getD, hline, Option.getD_some]
  · rintro ⟨line, h, hline, hcontinued, hheader, hcolon, hbare, rfl⟩
    obtain ⟨m, -, -, -, rfl⟩ := BlockHeader.ofLine?_eq_some_iff.mp hheader
    refine ⟨check style lines, rfl, _, List.mem_filterMap.mpr
      ⟨_, BlockHeader.mem_all_iff.mpr ⟨i, line, hline, hcontinued, hheader⟩, if_neg ?_⟩, rfl, ?_⟩
    · simp only [Bool.or_eq_true, Bool.and_eq_true, List.contains_iff_mem, beq_iff_eq, not_or,
        Bool.not_eq_true]
      exact ⟨hcolon, hbare⟩
    · simp only [List.getD_eq_getElem?_getD, hline, Option.getD_some]

def code (style : LiteralStyle) (line : Text) : Text := Text.trim (style.codeMask line)

open Brackets (ofText HasOuterColon)

theorem bracketBalance_le_iff : LineScan.bracketBalance (code style line) ≤ 0 ↔
    (ofText (code style line)).opened.count '(' + (ofText (code style line)).opened.count '[' ≤
      (ofText (code style line)).stray.count ')' + (ofText (code style line)).stray.count ']' := by
  rw [Brackets.bracketBalance_eq]
  simp only [Brackets.net]
  omega

theorem hasColon_eq_false_iff {t : Text} : hasColon 0 t = false ↔ ¬HasOuterColon {} t := by
  rw [← Brackets.hasColon_iff, Bool.not_eq_true]
  rfl

/-- A line that leaves brackets open is reported exactly if it is a header at the start of a
statement, without a colon outside brackets, of which no more round and square brackets are open
than closing ones are stray. Open braces do not count. -/
theorem replaces_iff_of_opened (hline : lines[i]? = some line)
    (hopened : (ofText (code style line)).opened ≠ []) :
    (rule style).Replaces lines i new ↔ (LineScan.continued style lines)[i]? = some false ∧
      BlockHeader.pattern.matchesStart (code style line) = true ∧
      (code style line).getLast? ≠ some '\\' ∧
      (ofText (code style line)).opened.count '(' + (ofText (code style line)).opened.count '[' ≤
        (ofText (code style line)).stray.count ')' + (ofText (code style line)).stray.count ']' ∧
      ¬HasOuterColon {} (code style line) ∧ new = addColon style line := by
  rw [replaces_iff, ← bracketBalance_le_iff, ← hasColon_eq_false_iff]
  constructor
  · rintro ⟨line', h, hline', hcontinued, hheader, hnone, -, rfl⟩
    obtain rfl := Option.some.inj (hline.symm.trans hline')
    obtain ⟨m, hm, hclosed, hlast, rfl⟩ := BlockHeader.ofLine?_eq_some_iff.mp hheader
    refine ⟨hcontinued, ?_, hlast, hclosed, hnone, rfl⟩
    rw [Pattern.matchesStart, code, hm, Option.isSome_some]
  · rintro ⟨hcontinued, hmatches, hlast, hclosed, hnone, rfl⟩
    obtain ⟨m, hm⟩ := Option.isSome_iff_exists.mp hmatches
    refine ⟨line, _, hline, hcontinued,
      BlockHeader.ofLine?_eq_some_iff.mpr ⟨m, hm, hclosed, hlast, rfl⟩, hnone, ?_, rfl⟩
    rintro ⟨hkeyword, hbare⟩
    -- a bare keyword opens no bracket
    have hnothing : ∀ keyword ∈ conditionKeywords, (ofText keyword).opened = [] := by decide
    have hcode : code style line = m.text "keyword" := hbare
    exact hopened (hcode ▸ hnothing _ hkeyword)

theorem replaces_iff_of_opened_setLoop :
    (ofText (code Python.profile.style "for k in \x7b".toList)).opened = ['{'] ∧
      (rule Python.profile.style).Replaces
        ["for k in \x7b".toList, "    'a',".toList, "\x7d:".toList] 0 "for k in \x7b:".toList := by
  have hopened : (ofText (code Python.profile.style "for k in \x7b".toList)).opened = ['{'] := by
    decide +kernel
  refine ⟨hopened, (replaces_iff_of_opened rfl (by rw [hopened]; decide)).mpr ?_⟩
  have hlast : (code Python.profile.style "for k in \x7b".toList).getLast? = some '{' := by
    decide +kernel
  have hcolon : hasColon 0 (code Python.profile.style "for k in \x7b".toList) = false := by
    decide +kernel
  refine ⟨by decide +kernel, by decide +kernel, by rw [hlast]; decide, by decide +kernel, ?_,
    by decide +kernel⟩
  rwa [← hasColon_eq_false_iff]

/-- Where each closing bracket closes something, only braces are open in a header that is reported.
-/
theorem eq_brace_of_replaces (hline : lines[i]? = some line)
    (hstray : (ofText (code style line)).stray = [])
    (hreplaces : (rule style).Replaces lines i new) :
    ∀ x ∈ (ofText (code style line)).opened, x = '{' := by
  intro x hx
  obtain ⟨line', h, hline', -, hheader, -⟩ := replaces_iff.mp hreplaces
  obtain rfl := Option.some.inj (hline.symm.trans hline')
  obtain ⟨m, -, hclosed, -⟩ := BlockHeader.ofLine?_eq_some_iff.mp hheader
  have hcount := bracketBalance_le_iff.mp hclosed
  rw [hstray, List.count_nil, List.count_nil] at hcount
  have hopener := Brackets.opened_after_subset (List.nil_subset _) (code style line) hx
  simp only [List.mem_cons, List.not_mem_nil, or_false] at hopener
  rcases hopener with rfl | rfl | rfl
  · have hpos := List.count_pos_iff.mpr hx
    omega
  · have hpos := List.count_pos_iff.mpr hx
    omega
  · rfl

end MissingColon

end Headers

end LineLint
