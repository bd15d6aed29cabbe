import LineLint.ProtectedSpan
import Mathlib.Data.List.Basic

/-!
# Respaced lines

Spacing puts single spaces beside characters that are not protected, and takes away the blanks that
stood there. All other characters stay, in their order; what is protected stays as it is; and
characters that meet in the new line met in the old one.
-/

namespace LineLint

def Text.solid (t : Text) : Text := t.filter fun c => !isSpaceOrTab c

namespace Text

variable {s t : Text} {c : Char}

@[simp] theorem solid_nil : solid [] = [] := rfl

@[simp] theorem solid_append (s t : Text) : solid (s ++ t) = s.solid ++ t.solid :=
  List.filter_append s t

@[simp] theorem solid_space_cons : solid (' ' :: t) = t.solid := rfl

theorem solid_cons_congr (h : s.solid = t.solid) : solid (c :: s) = solid (c :: t) := by
  unfold solid at h ⊢
  rw [List.filter_cons, List.filter_cons, h]

end Text

namespace Cell

def codes (cells : List Cell) : Text := cells.map (·.code)

@[simp] theorem codes_nil : codes [] = [] := rfl

@[simp] theorem codes_cons (cell : Cell) (cells : List Cell) :
    codes (cell :: cells) = cell.code :: codes cells := rfl

@[simp] theorem codes_append (cells more : List Cell) :
    codes (cells ++ more) = codes cells ++ codes more :=
  List.map_append

structure IsGap (cell : Cell) : Prop where
  notProtected : cell.isProtected = false
  blank : isSpaceOrTab cell.code = true

structure IsMark (cell : Cell) : Prop where
  notProtected : cell.isProtected = false
  notBlank : isBlank cell.code = false

theorem solid_codes_of_isGap {gap : List Cell} (hgap : ∀ cell ∈ gap, cell.IsGap) :
    (codes gap).solid = [] := by
  refine List.filter_eq_nil_iff.mpr fun c hc => ?_
  obtain ⟨cell, hcell, rfl⟩ := List.mem_map.mp hc
  simp [(hgap cell hcell).blank]

theorem solid_codes_append_of_isGap {gap : List Cell} (hgap : ∀ cell ∈ gap, cell.IsGap)
    (t : Text) : (codes gap ++ t).solid = t.solid := by
  rw [Text.solid_append, solid_codes_of_isGap hgap, List.nil_append]

end Cell

open Cell (codes)

/-- The text shows the cells, with a space in the place of the blanks before or behind some marks.
None is put before the first character that is no blank; `seen` tells whether there was one. -/
inductive Respaced : Bool → List Cell → Text → Prop where
  | nil {seen : Bool} : Respaced seen [] []
  | copy {seen : Bool} {cell : Cell} {cells : List Cell} {t : Text}
      (rest : Respaced (seen || !isBlank cell.code) cells t) :
      Respaced seen (cell :: cells) (cell.code :: t)
  | before {gap cells : List Cell} {mark : Cell} {t : Text} (hgap : ∀ cell ∈ gap, cell.IsGap)
      (hmark : mark.IsMark) (rest : Respaced true (mark :: cells) t) :
      Respaced true (gap ++ mark :: cells) (' ' :: t)
  | behind {seen : Bool} {gap cells : List Cell} {mark : Cell} {t : Text} (hmark : mark.IsMark)
      (hgap : ∀ cell ∈ gap, cell.IsGap) (rest : Respaced true cells t) :
      Respaced seen (mark :: (gap ++ cells)) (mark.code :: ' ' :: t)

namespace Respaced

variable {seen : Bool} {cells more : List Cell} {t : Text}

section Characters

theorem solid_eq (h : Respaced seen cells t) : t.solid = (codes cells).solid := by
  induction h with
  | nil => rfl
  | copy _ ih => exact Text.solid_cons_congr ih
  | before hgap _ _ ih =>
      rw [Text.solid_space_cons, ih, Cell.codes_append, Cell.solid_codes_append_of_isGap hgap]
  | behind _ hgap _ ih =>
      rw [Cell.codes_cons]
      apply Text.solid_cons_congr
      rw [Text.solid_space_cons, ih, Cell.codes_append, Cell.solid_codes_append_of_isGap hgap]

theorem takeWhile_isBlank_eq (h : Respaced false cells t) :
    t.takeWhile isBlank = (codes cells).takeWhile isBlank := by
  generalize hseen : false = seen at h
  induction h with
  | nil => rfl
  | @copy seen cell cells t _ ih =>
      subst hseen
      rw [Cell.codes_cons]
      cases hblank : isBlank cell.code with
      | true =>
          rw [List.takeWhile_cons_of_pos hblank, List.takeWhile_cons_of_pos hblank,
            ih (by rw [hblank]; rfl)]
      | false =>
          rw [List.takeWhile_cons_of_neg (by simp [hblank]),
            List.takeWhile_cons_of_neg (by simp [hblank])]
  | before => cases hseen
  | behind hmark =>
      rw [Cell.codes_cons, List.takeWhile_cons_of_neg (by simp [hmark.notBlank]),
        List.takeWhile_cons_of_neg (by simp [hmark.notBlank])]

end Characters

section Meeting

variable {before after : Text} {x y : Char}

/-- A character that starts the new line, and is no space or tab, starts the old one. -/
theorem exists_codes_eq_cons (h : Respaced seen cells (x :: t)) (hx : isSpaceOrTab x = false) :
    ∃ others, codes cells = x :: others := by
  generalize ht : x :: t = new at h
  cases h with
  | nil => cases ht
  | copy rest =>
      obtain ⟨rfl, -⟩ := List.cons.inj ht
      exact ⟨_, rfl⟩
  | before =>
      obtain ⟨rfl, -⟩ := List.cons.inj ht
      cases hx
  | behind =>
      obtain ⟨rfl, -⟩ := List.cons.inj ht
      exact ⟨_, rfl⟩

/-- Characters that meet in the new line, and are no spaces or tabs, met in the old one. -/
theorem exists_codes_eq_append (h : Respaced seen cells (before ++ x :: y :: after))
    (hx : isSpaceOrTab x = false) (hy : isSpaceOrTab y = false) :
    ∃ front back : Text, codes cells = front ++ x :: y :: back ∧ front.solid = before.solid := by
  generalize hnew : before ++ x :: y :: after = new at h
  induction h generalizing before with
  | nil => exact absurd hnew (by simp)
  | @copy seen cell cells t rest ih =>
      cases before with
      | nil =>
          obtain ⟨rfl, rfl⟩ := List.cons.inj hnew
          obtain ⟨back, hback⟩ := rest.exists_codes_eq_cons hy
          exact ⟨[], back, by rw [Cell.codes_cons, hback]; rfl, rfl⟩
      | cons b before =>
          obtain ⟨rfl, hrest⟩ := List.cons.inj hnew
          obtain ⟨front, back, hcells, hfront⟩ := ih hrest
          exact ⟨cell.code :: front, back, by rw [Cell.codes_cons, hcells]; rfl,
            Text.solid_cons_congr hfront⟩
  | @before gap cells mark t hgap _ _ ih =>
      cases before with
      | nil =>
          obtain ⟨rfl, -⟩ := List.cons.inj hnew
          cases hx
      | cons b before =>
          obtain ⟨rfl, hrest⟩ := List.cons.inj hnew
          obtain ⟨front, back, hcells, hfront⟩ := ih hrest
          refine ⟨codes gap ++ front, back, ?_, ?_⟩
          · rw [Cell.codes_append, hcells, List.append_assoc]
          · rw [Cell.solid_codes_append_of_isGap hgap, hfront, Text.solid_space_cons]
  | @behind seen gap cells mark t _ hgap _ ih =>
      cases before with
      | nil =>
          obtain ⟨-, hrest⟩ := List.cons.inj hnew
          obtain ⟨rfl, -⟩ := List.cons.inj hrest
          cases hy
      | cons b before =>
          obtain ⟨rfl, hspace⟩ := List.cons.inj hnew
          cases before with
          | nil =>
              obtain ⟨rfl, -⟩ := List.cons.inj hspace
              cases hx
          | cons b before =>
              obtain ⟨rfl, hrest⟩ := List.cons.inj hspace
              obtain ⟨front, back, hcells, hfront⟩ := ih hrest
              refine ⟨mark.code :: (codes gap ++ front), back, ?_, Text.solid_cons_congr ?_⟩
              · rw [Cell.codes_cons, Cell.codes_append, hcells, List.cons_append,
                  List.append_assoc]
              · rw [Cell.solid_codes_append_of_isGap hgap, hfront, Text.solid_space_cons]

end Meeting

section Protected

variable {cell : Cell}

/-- A list that goes on with an entry that is not in its first part. -/
theorem exists_append_of_append_eq {α : Type} {xs ys front back : List α} {x : α}
    (h : xs ++ ys = front ++ x :: back) (hx : x ∉ xs) :
    ∃ middle, front = xs ++ middle ∧ ys = middle ++ x :: back := by
  rcases List.append_eq_append_iff.mp h with ⟨middle, hfront, hys⟩ | ⟨middle, hxs, hback⟩
  · exact ⟨middle, hfront, hys⟩
  · cases middle with
    | nil => exact ⟨[], by simpa using hxs.symm, by simpa using hback.symm⟩
    | cons y middle =>
        obtain ⟨rfl, -⟩ := List.cons.inj hback
        exact absurd (by rw [hxs]; simp) hx

theorem not_mem_gap {gap : List Cell} (hgap : ∀ c ∈ gap, c.IsGap)
    (hcell : cell.isProtected = true) : cell ∉ gap := by
  intro hmem
  rw [(hgap cell hmem).notProtected] at hcell
  cases hcell

theorem ne_mark {mark : Cell} (hmark : mark.IsMark) (hcell : cell.isProtected = true) :
    mark ≠ cell := by
  rintro rfl
  rw [hmark.notProtected] at hcell
  cases hcell

/-- Before a protected character, the new line splits as the old one does. -/
theorem exists_append_of_protected (h : Respaced seen (cells ++ cell :: more) t)
    (hcell : cell.isProtected = true) :
    ∃ before after later, t = before ++ after ∧ Respaced seen cells before ∧
      Respaced later (cell :: more) after := by
  generalize hall : cells ++ cell :: more = all at h
  induction h generalizing cells with
  | nil => exact absurd hall (by simp)
  | @copy seen first rest t hrest ih =>
      cases cells with
      | nil =>
          obtain ⟨rfl, rfl⟩ := List.cons.inj hall
          exact ⟨[], _, seen, rfl, .nil, .copy hrest⟩
      | cons first' cells =>
          obtain ⟨rfl, hothers⟩ := List.cons.inj hall
          obtain ⟨before, after, later, rfl, hbefore, hafter⟩ := ih hothers
          exact ⟨first'.code :: before, after, later, rfl, .copy hbefore, hafter⟩
  | @before gap rest mark t hgap hmark _ ih =>
      obtain ⟨middle, rfl, hmiddle⟩ := exists_append_of_append_eq hall.symm (not_mem_gap hgap hcell)
      cases middle with
      | nil =>
          obtain ⟨rfl, -⟩ := List.cons.inj hmiddle
          exact absurd rfl (ne_mark hmark hcell)
      | cons first middle =>
          obtain ⟨before, after, later, rfl, hbefore, hafter⟩ := ih hmiddle.symm
          obtain ⟨rfl, -⟩ := List.cons.inj hmiddle
          exact ⟨' ' :: before, after, later, rfl, .before hgap hmark hbefore, hafter⟩
  | @behind seen gap rest mark t hmark hgap _ ih =>
      cases cells with
      | nil =>
          obtain ⟨rfl, -⟩ := List.cons.inj hall
          exact absurd rfl (ne_mark hmark hcell)
      | cons first cells =>
          obtain ⟨rfl, hothers⟩ := List.cons.inj hall
          obtain ⟨middle, rfl, hmiddle⟩ :=
            exists_append_of_append_eq hothers.symm (not_mem_gap hgap hcell)
          obtain ⟨before, after, later, rfl, hbefore, hafter⟩ := ih hmiddle.symm
          exact ⟨first.code :: ' ' :: before, after, later, rfl, .behind hmark hgap hbefore,
            hafter⟩

theorem exists_eq_cons_of_protected (h : Respaced seen (cell :: more) t)
    (hcell : cell.isProtected = true) :
    ∃ after later, t = cell.code :: after ∧ Respaced later more after := by
  generalize hall : cell :: more = all at h
  cases h with
  | nil => cases hall
  | copy rest =>
      obtain ⟨rfl, rfl⟩ := List.cons.inj hall
      exact ⟨_, _, rfl, rest⟩
  | @before gap rest mark t hgap hmark _ =>
      cases gap with
      | nil =>
          obtain ⟨rfl, -⟩ := List.cons.inj hall
          exact absurd rfl (ne_mark hmark hcell)
      | cons first gap =>
          obtain ⟨rfl, -⟩ := List.cons.inj hall
          exact absurd List.mem_cons_self (not_mem_gap hgap hcell)
  | behind hmark =>
      obtain ⟨rfl, -⟩ := List.cons.inj hall
      exact absurd rfl (ne_mark hmark hcell)

theorem exists_eq_append_of_protected {part : List Cell} (h : Respaced seen (part ++ more) t)
    (hpart : ∀ c ∈ part, c.isProtected = true) :
    ∃ after later, t = codes part ++ after ∧ Respaced later more after := by
  induction part generalizing seen t with
  | nil => exact ⟨t, seen, rfl, h⟩
  | cons cell part ih =>
      obtain ⟨hcell, hrest⟩ := List.forall_mem_cons.mp hpart
      obtain ⟨middle, later, rfl, hmiddle⟩ := h.exists_eq_cons_of_protected hcell
      obtain ⟨after, latest, rfl, hafter⟩ := ih hmiddle hrest
      exact ⟨after, latest, rfl, hafter⟩

/-- A protected part stands in the new line, between what stood before and behind it. -/
theorem exists_copy_of_protected {part : List Cell} (h : Respaced seen (cells ++ part ++ more) t)
    (hpart : ∀ c ∈ part, c.isProtected = true) (hne : part ≠ []) :
    ∃ before after : Text, t = before ++ codes part ++ after ∧
      before.solid = (codes cells).solid ∧ after.solid = (codes more).solid := by
  obtain ⟨cell, rest, rfl⟩ := List.exists_cons_of_ne_nil hne
  rw [List.append_assoc, List.cons_append] at h
  obtain ⟨before, others, later, rfl, hbefore, hothers⟩ :=
    h.exists_append_of_protected (hpart cell List.mem_cons_self)
  rw [← List.cons_append] at hothers
  obtain ⟨after, latest, rfl, hafter⟩ := hothers.exists_eq_append_of_protected hpart
  exact ⟨before, after, by rw [List.append_assoc], hbefore.solid_eq, hafter.solid_eq⟩

end Protected

section Building

theorem codes (cells : List Cell) : Respaced seen cells (codes cells) := by
  induction cells generalizing seen with
  | nil => exact .nil
  | cons cell cells ih => exact .copy ih

theorem append_codes (h : Respaced seen cells t) (more : List Cell) :
    Respaced seen (cells ++ more) (t ++ Cell.codes more) := by
  induction h with
  | nil => exact .codes more
  | copy _ ih => exact .copy ih
  | @before gap cells mark t hgap hmark _ ih =>
      rw [List.append_assoc, List.cons_append]
      exact .before hgap hmark ih
  | @behind seen gap cells mark t hmark hgap _ ih =>
      rw [List.cons_append, List.append_assoc]
      exact .behind hmark hgap ih

theorem codes_append {front : List Cell}
    (h : Respaced (seen || front.any fun cell => !isBlank cell.code) cells t) :
    Respaced seen (front ++ cells) (Cell.codes front ++ t) := by
  induction front generalizing seen with
  | nil => simpa using h
  | cons cell front ih =>
      rw [List.any_cons, ← Bool.or_assoc] at h
      exact .copy (ih h)

variable {gap token : List Cell}

theorem space_cons (hgap : ∀ cell ∈ gap, cell.IsGap) (hne : token ≠ [])
    (htoken : ∀ cell ∈ token, cell.IsMark) (h : Respaced true (token ++ cells) t) :
    Respaced true (gap ++ (token ++ cells)) (' ' :: t) := by
  obtain ⟨mark, rest, rfl⟩ := List.exists_cons_of_ne_nil hne
  exact .before hgap (htoken mark List.mem_cons_self) h

theorem codes_append_space_cons (hne : token ≠ []) (htoken : ∀ cell ∈ token, cell.IsMark)
    (hgap : ∀ cell ∈ gap, cell.IsGap) (h : Respaced true cells t) :
    Respaced seen (token ++ (gap ++ cells)) (Cell.codes token ++ ' ' :: t) := by
  obtain ⟨front, mark, rfl⟩ := (List.eq_nil_or_concat token).resolve_left hne
  rw [List.concat_eq_append] at htoken ⊢
  rw [Cell.codes_append, List.append_assoc, List.append_assoc]
  have hmark : mark.IsMark := htoken mark (by simp)
  have hlast : Respaced (seen || front.any fun cell => !isBlank cell.code)
      (mark :: (gap ++ cells)) (mark.code :: ' ' :: t) := .behind hmark hgap h
  exact codes_append hlast

end Building

end Respaced

end LineLint
