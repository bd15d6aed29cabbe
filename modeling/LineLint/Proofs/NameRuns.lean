import LineLint.Proofs.TextSplit
import LineLint.Proofs.WholeWords
import Mathlib.Data.List.SplitBy

/-!
# Runs of names

A text with its mask falls into runs: names, as far as the mask shows their parts, and single
characters between them. A whole word is a run, so that replacing a word replaces the runs that are
that word and copies all the others.
-/

namespace LineLint

def Text.joints (separator : Text) : List Text → List Nat
  | [] => []
  | [_] => []
  | part :: next :: parts =>
      part.length :: (joints separator (next :: parts)).map (part.length + separator.length + ·)

abbrev MaskedText := List (Char × Char)

namespace MaskedText

open LiteralStyle (IsName Stands isNamePart wholeWord replaceMatches)

variable {s t run a b : MaskedText} {rs rest : List MaskedText} {word new : Text} {x y : Char × Char}
  {front : Text} {previous : Option Char}

def code (t : MaskedText) : Text := t.map Prod.fst

def mask (t : MaskedText) : Text := t.map Prod.snd

def shown (t : Text) : MaskedText := t.map fun c => (c, c)

@[simp] theorem code_append (s t : MaskedText) : code (s ++ t) = code s ++ code t :=
  List.map_append

@[simp] theorem mask_append (s t : MaskedText) : mask (s ++ t) = mask s ++ mask t :=
  List.map_append

@[simp] theorem length_code (t : MaskedText) : (code t).length = t.length :=
  List.length_map _

@[simp] theorem length_mask (t : MaskedText) : (mask t).length = t.length :=
  List.length_map _

@[simp] theorem code_shown (t : Text) : code (shown t) = t := by
  rw [code, shown, List.map_map]
  exact List.map_id t

@[simp] theorem mask_shown (t : Text) : mask (shown t) = t := by
  rw [mask, shown, List.map_map]
  exact List.map_id t

@[simp] theorem length_shown (t : Text) : (shown t).length = t.length :=
  List.length_map _

theorem shown_append (s t : Text) : shown (s ++ t) = shown s ++ shown t :=
  List.map_append

theorem shown_injective (h : shown word = shown new) : word = new := by
  rw [← code_shown word, h, code_shown]

def IsMasked (t : MaskedText) : Prop := ∀ x ∈ t, x.2 = x.1 ∨ x.2 = maskChar

section Runs

def joins (x y : Char × Char) : Bool := isNamePart x.2 && isNamePart y.2

def runs (t : MaskedText) : List MaskedText := t.splitBy joins

/-- The runs of a text: names and single characters, of which no two names stand side by side. -/
structure AreRuns (rs : List MaskedText) : Prop where
  nil_notMem : [] ∉ rs
  joined : ∀ run ∈ rs, run.IsChain fun x y => joins x y = true
  apart : rs.IsChain fun a b => ∃ ha hb, joins (a.getLast ha) (b.head hb) = false

theorem areRuns_runs (t : MaskedText) : AreRuns (runs t) :=
  ⟨List.nil_notMem_splitBy _ _, fun _ => List.isChain_of_mem_splitBy,
    List.isChain_getLast_head_splitBy _ _⟩

theorem flatten_runs (t : MaskedText) : (runs t).flatten = t :=
  List.flatten_splitBy _ _

theorem AreRuns.runs_flatten (h : AreRuns rs) : runs rs.flatten = rs :=
  List.splitBy_flatten h.nil_notMem h.joined h.apart

theorem AreRuns.ne_nil (h : AreRuns rs) (hrun : run ∈ rs) : run ≠ [] := fun hnil =>
  h.nil_notMem (hnil ▸ hrun)

theorem isName_or_single (hne : run ≠ []) (hrun : run.IsChain fun x y => joins x y = true) :
    IsName (mask run) ∨ ∃ x, run = [x] ∧ isNamePart x.2 = false := by
  induction run with
  | nil => exact absurd rfl hne
  | cons x run ih =>
      cases run with
      | nil =>
          by_cases hx : isNamePart x.2 = true
          · exact Or.inl ⟨List.cons_ne_nil _ _, List.forall_mem_singleton.mpr hx⟩
          · exact Or.inr ⟨x, rfl, by simpa using hx⟩
      | cons y run =>
          obtain ⟨hjoins, hrest⟩ := List.isChain_cons_cons.mp hrun
          obtain ⟨hx, hy⟩ := Bool.and_eq_true_iff.mp hjoins
          rcases ih (List.cons_ne_nil y run) hrest with hname | ⟨z, hz, hnone⟩
          · exact Or.inl ⟨List.cons_ne_nil _ _, List.forall_mem_cons.mpr ⟨hx, hname.2⟩⟩
          · obtain ⟨rfl, -⟩ := List.cons.inj hz
            rw [hy] at hnone
            cases hnone

theorem AreRuns.isName_or_single (h : AreRuns rs) (hrun : run ∈ rs) :
    IsName (mask run) ∨ ∃ x, run = [x] ∧ isNamePart x.2 = false :=
  MaskedText.isName_or_single (h.ne_nil hrun) (h.joined run hrun)

theorem AreRuns.of_append {front back : List MaskedText} (h : AreRuns (front ++ back)) :
    AreRuns back :=
  ⟨fun hmem => h.nil_notMem (List.mem_append_right front hmem),
    fun r hr => h.joined r (List.mem_append_right front hr), (List.isChain_append.mp h.apart).2.1⟩

theorem AreRuns.not_joins {front back : List MaskedText} (h : AreRuns (front ++ back))
    (hx : x ∈ front.flatten.getLast?) (hy : y ∈ back.flatten.head?) : joins x y = false := by
  rcases List.eq_nil_or_concat front with rfl | ⟨init, last, rfl⟩
  · cases hx
  cases back with
  | nil => cases hy
  | cons next back =>
      obtain ⟨hlast, hnext, happart⟩ :=
        (List.isChain_append.mp h.apart).2.2 last (by simp) next rfl
      rw [List.concat_eq_append, List.flatten_append, List.flatten_singleton,
        List.getLast?_append, List.getLast?_eq_some_getLast hlast] at hx
      rw [List.flatten_cons, List.head?_append, List.head?_eq_some_head hnext] at hy
      obtain rfl : last.getLast hlast = x := by simpa using hx
      obtain rfl : next.head hnext = y := by simpa using hy
      exact happart

theorem AreRuns.not_isNamePart (h : AreRuns (run :: rs)) (hname : IsName (mask run))
    (hy : y ∈ rs.flatten.head?) : isNamePart y.2 = false := by
  have hne := h.ne_nil List.mem_cons_self
  have hpart : isNamePart (run.getLast hne).2 = true :=
    hname.2 _ (List.mem_map_of_mem (List.getLast_mem hne))
  have hruns : AreRuns ([run] ++ rs) := h
  have hlast : run.getLast hne ∈ [run].flatten.getLast? := by
    simp [List.getLast?_eq_some_getLast hne]
  have happart := hruns.not_joins hlast hy
  rwa [joins, hpart, Bool.true_and] at happart

theorem eq_shown_of_mask_eq (hrun : IsMasked run) (hword : IsName word) (h : mask run = word) :
    run = shown word := by
  subst h
  refine List.ext_getElem (by simp) fun i hi hi' => ?_
  have hpart := hword.2 run[i].2 (List.mem_map_of_mem (List.getElem_mem hi))
  simp only [shown, mask, List.getElem_map]
  rcases hrun run[i] (List.getElem_mem hi) with hshows | hhides
  · exact Prod.ext hshows.symm rfl
  · rw [hhides] at hpart
    cases hpart

end Runs

section Renaming

def rename (word new : Text) (run : MaskedText) : MaskedText :=
  if run = shown word then shown new else run

theorem rename_shown (word new : Text) : rename word new (shown word) = shown new :=
  if_pos rfl

theorem rename_of_ne (h : run ≠ shown word) : rename word new run = run :=
  if_neg h

/-- A word stands in no other run, nor across its end. -/
theorem AreRuns.not_stands (h : AreRuns (run :: rs)) (hrun : IsMasked run) (hword : IsName word)
    (hne : run ≠ shown word) {back : Text} (hsplit : mask run = front ++ back) (hback : back ≠ []) :
    ¬Stands word (front.getLast?.or previous) (back ++ mask rs.flatten) := by
  intro hstands
  rcases h.isName_or_single List.mem_cons_self with hname | ⟨x, rfl, hnone⟩
  · cases hfront : front.getLast? with
    | some last =>
        have hmem : last ∈ mask run := by
          rw [hsplit]
          exact List.mem_append_left _ (List.mem_of_getLast? hfront)
        have hbefore := hstands.before last (by rw [hfront]; rfl)
        rw [hname.2 last hmem] at hbefore
        cases hbefore
    | none =>
        rw [List.getLast?_eq_none_iff] at hfront
        rw [hfront, List.nil_append] at hsplit
        rw [← hsplit] at hstands
        have hapart : ∀ c ∈ (mask rs.flatten).head?, isNamePart c = false := by
          intro c hc
          rw [mask, List.head?_map] at hc
          obtain ⟨y, hy, rfl⟩ := Option.map_eq_some_iff.mp hc
          exact h.not_isNamePart hname hy
        have hsame := hstands.eq_of_isName hword hname hapart
        exact hne (eq_shown_of_mask_eq hrun hword hsame.symm)
  · obtain rfl : back = [x.2] := by
      have hlength := congrArg List.length hsplit
      have hpositive := List.length_pos_of_ne_nil hback
      simp only [length_mask, List.length_append, List.length_singleton] at hlength
      obtain rfl : front = [] := List.eq_nil_of_length_eq_zero (by omega)
      exact hsplit.symm
    obtain ⟨c, others, hcons⟩ := List.exists_cons_of_ne_nil hword.1
    have hoccurs := hstands.occurs
    rw [hcons] at hoccurs
    obtain ⟨rfl, -⟩ := List.cons_prefix_cons.mp hoccurs
    rw [hword.2 x.2 (by rw [hcons]; exact List.mem_cons_self)] at hnone
    cases hnone

theorem AreRuns.stands (h : AreRuns (shown word :: rs)) (hword : IsName word)
    (hprevious : ∀ c ∈ previous, ∀ y ∈ (shown word).head?,
      (isNamePart c && isNamePart y.2) = false) :
    Stands word previous (word ++ mask rs.flatten) := by
  refine ⟨fun c hc => ?_, List.prefix_append _ _, fun c hc => ?_⟩
  · obtain ⟨d, others, hcons⟩ := List.exists_cons_of_ne_nil hword.1
    have hapart := hprevious c hc (d, d) (by rw [hcons]; rfl)
    have hd : isNamePart d = true := hword.2 d (by rw [hcons]; exact List.mem_cons_self)
    rwa [hd, Bool.and_true] at hapart
  · rw [List.drop_left, mask, List.head?_map] at hc
    obtain ⟨y, hy, rfl⟩ := Option.map_eq_some_iff.mp hc
    exact h.not_isNamePart (by rwa [mask_shown]) hy

/-- The search finds nothing in a run that is not the word. -/
theorem AreRuns.findFrom_eq (h : AreRuns (run :: rs)) (hrun : IsMasked run) (hword : IsName word)
    (hne : run ≠ shown word) (position : Nat) (previous : Option Char) :
    (wholeWord word).findFrom position position previous (mask run ++ mask rs.flatten) =
      (wholeWord word).findFrom (position + run.length) (position + run.length)
        ((mask run).getLast?.or previous) (mask rs.flatten) := by
  have hnone : ∀ first last, mask run = first ++ last → last ≠ [] →
      (wholeWord word).matchesAt ⟨position + first.length, first.getLast?.or previous,
        last ++ mask rs.flatten, []⟩ = [] := by
    intro first last hsplit hlast
    apply LiteralStyle.matchesAt_of_not_stands
    exact h.not_stands hrun hword hne hsplit hlast
  rw [Pattern.findFrom_of_none hnone, length_mask]

theorem AreRuns.previous_run (h : AreRuns (run :: rs)) (previous : Option Char) :
    ∀ c ∈ (mask run).getLast?.or previous, ∀ y ∈ rs.flatten.head?,
      (isNamePart c && isNamePart y.2) = false := by
  have hruns : AreRuns ([run] ++ rs) := h
  have hne := h.ne_nil List.mem_cons_self
  intro c hc y hy
  rw [mask, List.getLast?_map, List.getLast?_eq_some_getLast hne] at hc
  obtain rfl : (run.getLast hne).2 = c := by simpa using hc
  exact hruns.not_joins (by simp [List.getLast?_eq_some_getLast hne]) hy

/-- From the start of a run on, the search finds the runs that are the word, and each of them is
replaced. -/
theorem AreRuns.replaceMatches_eq (h : AreRuns rs) (hmasked : IsMasked rs.flatten)
    (hword : IsName word) (front : Text)
    (hprevious : ∀ c ∈ previous, ∀ y ∈ rs.flatten.head?, (isNamePart c && isNamePart y.2) = false) :
    replaceMatches (front ++ code rs.flatten) (fun _ => new) front.length
      ((wholeWord word).findFrom front.length front.length previous (mask rs.flatten)) =
        code (rs.map (rename word new)).flatten := by
  induction rs generalizing front previous with
  | nil =>
      have hnone : (wholeWord word).matchesAt ⟨front.length, previous, [], []⟩ = [] :=
        LiteralStyle.matchesAt_of_not_stands fun hstands =>
          hword.1 (List.prefix_nil.mp hstands.occurs)
      change replaceMatches _ _ _ (Pattern.findFrom _ _ _ _ []) = _
      rw [Pattern.findFrom, if_neg (Nat.lt_irrefl _), hnone, replaceMatches, List.drop_left]
      rfl
  | cons run rs ih =>
      have hruns : AreRuns ([run] ++ rs) := h
      rw [List.flatten_cons] at hmasked
      have hrun : IsMasked run := fun x hx => hmasked x (List.mem_append_left _ hx)
      have hrest := ih hruns.of_append (fun x hx => hmasked x (List.mem_append_right _ hx))
        (front ++ code run) (h.previous_run previous)
      rw [List.length_append, length_code, List.append_assoc] at hrest
      rw [List.flatten_cons, code_append, mask_append, List.map_cons, List.flatten_cons, code_append]
      by_cases hsame : run = shown word
      · subst hsame
        have hstands := h.stands hword fun c hc y hy => hprevious c hc y (by
          rw [List.flatten_cons, List.head?_append, Option.mem_def.mp hy]
          rfl)
        rw [code_shown, length_shown, mask_shown] at hrest
        rw [code_shown, mask_shown, rename_shown, code_shown,
          LiteralStyle.findFrom_of_stands hword.1 hstands, replaceMatches, hrest, Text.slice,
          List.drop_eq_nil_of_le (by simp)]
        rfl
      · rw [rename_of_ne hsame, h.findFrom_eq hrun hword hsame, LiteralStyle.replaceMatches_of_le
          (Nat.le_add_right _ _) fun m hm => Pattern.le_start_of_mem_findFrom hm, hrest]
        congr 1
        rw [Text.slice, ← length_code run, ← List.append_assoc, ← List.length_append,
          List.take_left, List.drop_left]

theorem isNamePart_of_mem_shown (h : IsName word) : ∀ x ∈ shown word, isNamePart x.2 = true := by
  intro x hx
  obtain ⟨c, hc, rfl⟩ := List.mem_map.mp hx
  exact h.2 c hc

theorem shown_ne_nil (h : IsName word) : shown word ≠ [] := by
  simpa [shown] using h.1

theorem isChain_shown (h : IsName word) :
    (shown word).IsChain fun x y => joins x y = true := by
  apply List.Pairwise.isChain
  apply List.pairwise_of_forall_mem_list
  intro x hx y hy
  rw [joins, isNamePart_of_mem_shown h x hx, isNamePart_of_mem_shown h y hy]
  rfl

theorem rename_ne_nil (hnew : IsName new) {run : MaskedText} (hrun : run ≠ []) :
    rename word new run ≠ [] := by
  unfold rename
  split_ifs
  · exact shown_ne_nil hnew
  · exact hrun

theorem isNamePart_rename (hword : IsName word) (hnew : IsName new) {run : MaskedText}
    (hrun : run ≠ []) (hrenamed : rename word new run ≠ []) :
    isNamePart ((rename word new run).getLast hrenamed).2 = isNamePart (run.getLast hrun).2 ∧
      isNamePart ((rename word new run).head hrenamed).2 = isNamePart (run.head hrun).2 := by
  by_cases hsame : run = shown word
  · subst hsame
    have hword' := isNamePart_of_mem_shown hword
    have hnew' := isNamePart_of_mem_shown hnew
    simp only [rename_shown]
    rw [hword' _ (List.getLast_mem hrun), hword' _ (List.head_mem hrun),
      hnew' _ (List.getLast_mem (shown_ne_nil hnew)), hnew' _ (List.head_mem (shown_ne_nil hnew))]
    exact ⟨rfl, rfl⟩
  · simp only [rename_of_ne hsame]
    exact ⟨trivial, trivial⟩

theorem AreRuns.map_rename (h : AreRuns rs) (hword : IsName word) (hnew : IsName new) :
    AreRuns (rs.map (rename word new)) where
  nil_notMem hmem := by
    obtain ⟨run, hrun, hnil⟩ := List.mem_map.mp hmem
    exact rename_ne_nil hnew (h.ne_nil hrun) hnil
  joined := by
    refine List.forall_mem_map.mpr fun run hrun => ?_
    by_cases hsame : run = shown word
    · subst hsame
      rw [rename_shown]
      exact isChain_shown hnew
    · rw [rename_of_ne hsame]
      exact h.joined run hrun
  apart := by
    rw [List.isChain_map]
    refine h.apart.imp fun a b happart => ?_
    obtain ⟨ha, hb, hjoins⟩ := happart
    refine ⟨rename_ne_nil hnew ha, rename_ne_nil hnew hb, ?_⟩
    have hlast := (isNamePart_rename hword hnew ha (rename_ne_nil hnew ha)).1
    have hhead := (isNamePart_rename hword hnew hb (rename_ne_nil hnew hb)).2
    rw [joins, hlast, hhead]
    exact hjoins

end Renaming

section Places

variable {i : Nat}

/-- A word in a text with its mask: shown, and with no part of a name beside it. -/
def IsRunAt (word : Text) (t : MaskedText) (i : Nat) : Prop :=
  ∃ a b, t = a ++ (shown word ++ b) ∧ a.length = i ∧
    (∀ x ∈ a.getLast?, isNamePart x.2 = false) ∧ ∀ y ∈ b.head?, isNamePart y.2 = false

theorem runs_append (h : ∀ x ∈ a.getLast?, ∀ y ∈ b.head?, joins x y = false) :
    runs (a ++ b) = runs a ++ runs b :=
  List.splitBy_append h

/-- The places of a word are its runs. -/
theorem isRunAt_iff (hword : IsName word) :
    IsRunAt word t i ↔
      ∃ front back, runs t = front ++ shown word :: back ∧ i = front.flatten.length := by
  have hne := shown_ne_nil hword
  constructor
  · rintro ⟨a, b, rfl, rfl, hbefore, hbehind⟩
    have hleft : ∀ x ∈ a.getLast?, ∀ y ∈ (shown word ++ b).head?, joins x y = false := by
      intro x hx y _
      rw [joins, hbefore x hx, Bool.false_and]
    have hright : ∀ x ∈ (shown word).getLast?, ∀ y ∈ b.head?, joins x y = false := by
      intro x _ y hy
      rw [joins, hbehind y hy, Bool.and_false]
    have hown : runs (shown word) = [shown word] :=
      List.splitBy_of_isChain hne (isChain_shown hword)
    refine ⟨runs a, runs b, ?_, by rw [flatten_runs]⟩
    rw [runs_append hleft, runs_append hright, hown, List.singleton_append]
  · rintro ⟨front, back, hruns, rfl⟩
    have h := areRuns_runs t
    rw [hruns] at h
    refine ⟨front.flatten, back.flatten, ?_, rfl, fun x hx => ?_, fun y hy => ?_⟩
    · rw [← flatten_runs t, hruns, List.flatten_append, List.flatten_cons]
    · have hhead : (shown word).head hne ∈ (shown word :: back).flatten.head? := by
        rw [List.flatten_cons, List.head?_append, List.head?_eq_some_head hne]
        rfl
      have happart := h.not_joins hx hhead
      rwa [joins, isNamePart_of_mem_shown hword _ (List.head_mem hne), Bool.and_true] at happart
    · exact h.of_append.not_isNamePart (by rwa [mask_shown]) hy

theorem joints_append_cons (separator s part : Text) (parts : List Text) :
    Text.joints separator ((s ++ part) :: parts) =
      (Text.joints separator (part :: parts)).map (s.length + ·) := by
  cases parts with
  | nil => rfl
  | cons next parts =>
      simp only [Text.joints, List.map_cons, List.map_map, List.length_append]
      congr 2
      funext n
      simp only [Function.comp_apply]
      omega

/-- The word joins what lies between its runs, and so does the one that takes its place. -/
theorem exists_parts (word new : Text) (rs : List MaskedText) :
    ∃ parts, parts ≠ [] ∧ code rs.flatten = Text.joinWith word parts ∧
      code (rs.map (rename word new)).flatten = Text.joinWith new parts ∧
      ∀ i, i ∈ Text.joints word parts ↔
        ∃ front back, rs = front ++ shown word :: back ∧ i = front.flatten.length := by
  induction rs with
  | nil =>
      refine ⟨[[]], List.cons_ne_nil _ _, rfl, rfl, fun i => ?_⟩
      simp [Text.joints]
  | cons run rs ih =>
      obtain ⟨parts, hne, hword, hnew, hplaces⟩ := ih
      obtain ⟨part, parts, rfl⟩ := List.exists_cons_of_ne_nil hne
      have hcons (i : Nat) : (∃ front back, run :: rs = front ++ shown word :: back ∧
          i = front.flatten.length) ↔
            run = shown word ∧ i = 0 ∨
              ∃ j ∈ Text.joints word (part :: parts), i = run.length + j := by
        constructor
        · rintro ⟨front, back, hsplit, rfl⟩
          cases front with
          | nil => exact Or.inl ⟨(List.cons.inj hsplit).1, rfl⟩
          | cons first front =>
              obtain ⟨rfl, rfl⟩ := List.cons.inj hsplit
              refine Or.inr ⟨front.flatten.length, (hplaces _).mpr ⟨front, back, rfl, rfl⟩, ?_⟩
              rw [List.flatten_cons, List.length_append]
        · rintro (⟨rfl, rfl⟩ | ⟨j, hj, rfl⟩)
          · exact ⟨[], rs, rfl, rfl⟩
          · obtain ⟨front, back, rfl, rfl⟩ := (hplaces j).mp hj
            refine ⟨run :: front, back, rfl, ?_⟩
            rw [List.flatten_cons, List.length_append]
      by_cases hsame : run = shown word
      · subst hsame
        refine ⟨[] :: part :: parts, List.cons_ne_nil _ _, ?_, ?_, fun i => ?_⟩
        · rw [List.flatten_cons, code_append, hword, code_shown, Text.joinWith_cons,
            Text.joinWith_cons, List.nil_append, List.flatMap_cons, List.append_assoc]
        · rw [List.map_cons, rename_shown, List.flatten_cons, code_append, hnew, code_shown,
            Text.joinWith_cons, Text.joinWith_cons, List.nil_append, List.flatMap_cons,
            List.append_assoc]
        · rw [hcons, Text.joints, List.mem_cons, List.mem_map]
          simp only [List.length_nil, Nat.zero_add, true_and, length_shown, eq_comm]
      · refine ⟨(code run ++ part) :: parts, List.cons_ne_nil _ _, ?_, ?_, fun i => ?_⟩
        · rw [List.flatten_cons, code_append, hword, Text.joinWith_cons, Text.joinWith_cons,
            List.append_assoc]
        · rw [List.map_cons, rename_of_ne hsame, List.flatten_cons, code_append, hnew,
            Text.joinWith_cons, Text.joinWith_cons, List.append_assoc]
        · rw [hcons, joints_append_cons, List.mem_map]
          simp only [hsame, false_and, false_or, length_code, eq_comm]

end Places

end MaskedText

end LineLint
