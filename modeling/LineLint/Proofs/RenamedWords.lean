import LineLint.Proofs.NameRuns
import LineLint.Proofs.ReadLines

/-!
# Renamed words

A name that takes the place of a name changes nothing around it: neither is a quote, opens a comment
or stands in a literal. The renamed line therefore falls into the runs of the line with one word in
the place of the other. The word is gone from it, and where the other word was not there before, it
can be renamed back.
-/

namespace LineLint

namespace LiteralStyle

open MaskedText (shown code mask IsMasked AreRuns runs rename IsRunAt)

variable {style : LiteralStyle} {line rest t u v word new interior after : Text} {quote c : Char}
  {a b : MaskedText} {rs : List MaskedText} {i : Nat}

/-- A whole word outside the interiors of literals: it stands at the position, the mask shows all of
it, and the characters beside it are no parts of a name. -/
structure IsWordAt (style : LiteralStyle) (line word : Text) (i : Nat) : Prop where
  occurs : word <+: line.drop i
  shows : ∀ k, i ≤ k → k < i + word.length → style.Shows line k
  before : ∀ c ∈ (line.take i).getLast?, isNamePart c = false
  behind : ∀ c ∈ (line.drop (i + word.length)).head?, isNamePart c = false

section Cells

def masked (style : LiteralStyle) (line : Text) : MaskedText :=
  line.zip (style.maskLiterals line)

def hidden (t : Text) : MaskedText := t.map fun c => (c, maskChar)

@[simp] theorem code_masked (style : LiteralStyle) (line : Text) : code (style.masked line) = line :=
  List.map_fst_zip (by simp)

@[simp] theorem mask_masked (style : LiteralStyle) (line : Text) :
    mask (style.masked line) = style.maskLiterals line :=
  List.map_snd_zip (by simp)

theorem zip_replicate (t : Text) : t.zip (List.replicate t.length maskChar) = hidden t := by
  induction t with
  | nil => rfl
  | cons c t ih => rw [List.length_cons, List.replicate_succ, List.zip_cons_cons, ih]; rfl

theorem masked_of_commentStarts (h : style.commentStarts (c :: rest) = true) :
    style.masked (c :: rest) = shown (c :: rest) := by
  rw [masked, maskLiterals_of_commentStarts h, List.zip_eq_zipWith, List.zipWith_self]
  rfl

theorem masked_cons_of_plain (hcomment : style.commentStarts (c :: rest) = false)
    (hquote : c ∉ style.quotes) : style.masked (c :: rest) = (c, c) :: style.masked rest := by
  rw [masked, maskLiterals_cons_of_plain hcomment hquote]
  rfl

theorem masked_of_closed (hquotes : '\\' ∉ style.quotes)
    (h : style.IsLiteralBefore (quote :: (interior ++ [quote])) after) :
    style.masked (quote :: (interior ++ [quote]) ++ after) =
      (quote, quote) :: (hidden interior ++ [(quote, quote)]) ++ style.masked after := by
  rw [masked, maskLiterals_of_closed hquotes h, List.zip_append (by simp), List.zip_cons_cons,
    List.zip_append (by simp), zip_replicate]
  rfl

theorem masked_of_staysOpen (hquotes : '\\' ∉ style.quotes)
    (hcomment : style.commentStarts (quote :: rest) = false)
    (hopen : style.StaysOpen (quote :: rest)) :
    style.masked (quote :: rest) = (quote, quote) :: hidden rest := by
  rw [masked, maskLiterals_of_staysOpen hquotes hcomment hopen, List.zip_cons_cons, zip_replicate]

theorem not_isNamePart_quote (hstyle : style.IsOrdinary) (hquote : quote ∈ style.quotes) :
    isNamePart quote = false := by
  by_contra hpart
  rw [Bool.not_eq_false] at hpart
  exact hstyle.notMem_quotes (isMark_of_isNamePart hpart) hquote

theorem not_isNamePart_hidden {x : Char × Char} (hx : x ∈ hidden t) : isNamePart x.2 = false := by
  obtain ⟨c, -, rfl⟩ := List.mem_map.mp hx
  change isNamePart maskChar = false
  decide

theorem not_isNamePart_literal (hstyle : style.IsOrdinary) (hquote : quote ∈ style.quotes)
    {x : Char × Char} (hx : x ∈ (quote, quote) :: (hidden interior ++ [(quote, quote)])) :
    isNamePart x.2 = false := by
  rcases List.mem_cons.mp hx with rfl | hx
  · exact not_isNamePart_quote hstyle hquote
  · rcases List.mem_append.mp hx with hx | hx
    · exact not_isNamePart_hidden hx
    · rw [List.mem_singleton.mp hx]
      exact not_isNamePart_quote hstyle hquote

theorem isMasked_masked (style : LiteralStyle) (line : Text) : IsMasked (style.masked line) := by
  intro x hx
  obtain ⟨i, hi⟩ := List.mem_iff_getElem?.mp hx
  obtain ⟨hcode, hmask⟩ := List.getElem?_zip_eq_some.mp hi
  exact (eq_or_isInside hcode hmask).imp_right And.left

end Cells

section Swaps

theorem masked_name_append (hstyle : style.IsOrdinary) (hu : ∀ c ∈ u, isNamePart c = true)
    (t : Text) : style.masked (u ++ t) = shown u ++ style.masked t := by
  induction u with
  | nil => rfl
  | cons c u ih =>
      obtain ⟨hc, hu⟩ := List.forall_mem_cons.mp hu
      have hmark : isMark c = false := isMark_of_isNamePart hc
      have hcomment : style.commentStarts (c :: (u ++ t)) = false := by
        apply hstyle.commentStarts_cons
        intro hother
        rw [hmark] at hother
        cases hother
      rw [List.cons_append, masked_cons_of_plain hcomment (hstyle.notMem_quotes hmark), ih hu]
      rfl

/-- Where a name stands, what is before it alone can start a comment. -/
theorem commentStarts_swap (hstyle : style.IsOrdinary) (hu : IsName u) (hv : IsName v)
    (s t : Text) : style.commentStarts (s ++ (v ++ t)) = style.commentStarts (s ++ (u ++ t)) := by
  apply hstyle.commentStarts_congr
  intro mark _ hmark
  have hnone {name : Text} (hname : IsName name) :
      mark <+: s ++ (name ++ t) ↔ mark <+: s := by
    obtain ⟨c, others, rfl⟩ := List.exists_cons_of_ne_nil hname.1
    apply Text.prefix_append_cons_iff
    intro hc
    have hpart := (hmark c hc).1
    rw [isMark_of_isNamePart (hname.2 c List.mem_cons_self)] at hpart
    cases hpart
  rw [hnone hu, hnone hv]

theorem code_hidden (t : Text) : code (hidden t) = t := by
  rw [code, hidden, List.map_map]
  exact List.map_id t

theorem exists_append_of_not_isNamePart {l s : MaskedText}
    (hl : ∀ x ∈ l, isNamePart x.2 = false) (hu : IsName u) (h : l ++ s = a ++ (shown u ++ b)) :
    ∃ a', a = l ++ a' ∧ s = a' ++ (shown u ++ b) := by
  rcases List.append_eq_append_iff.mp h with hwithin | ⟨others, rfl, hothers⟩
  · exact hwithin
  · cases others with
    | nil => exact ⟨[], by simp, hothers.symm⟩
    | cons x others =>
        obtain ⟨c, name, rfl⟩ := List.exists_cons_of_ne_nil hu.1
        obtain ⟨rfl, -⟩ := List.cons.inj hothers
        have hc := hl (c, c) (List.mem_append_right _ List.mem_cons_self)
        rw [hu.2 c List.mem_cons_self] at hc
        cases hc

theorem append_shown_ne_nil (hu : IsName u) : a ++ (shown u ++ b) ≠ [] := by
  obtain ⟨c, name, rfl⟩ := List.exists_cons_of_ne_nil hu.1
  exact List.append_ne_nil_of_right_ne_nil a (List.cons_ne_nil _ _)

/-- A literal stays a literal when behind it one name is put in the place of another. -/
theorem IsLiteralBefore.swap {literal : Text} (hstyle : style.IsOrdinary) (hu : IsName u)
    (hv : IsName v) {s : Text} (h : style.IsLiteralBefore literal (s ++ (u ++ t))) :
    style.IsLiteralBefore literal (s ++ (v ++ t)) := by
  apply isLiteralBefore_of_closes
  · have hcomment := h.commentStarts_eq
    rw [← List.append_assoc] at hcomment ⊢
    rwa [commentStarts_swap hstyle hu hv]
  · apply h.closes.congr (Nat.le_refl _)
    intro quote hquote hhead
    cases s with
    | nil =>
        obtain ⟨c, name, rfl⟩ := List.exists_cons_of_ne_nil hv.1
        obtain rfl : c = quote := Option.some.inj hhead
        have hc := not_isNamePart_quote hstyle hquote
        rw [hv.2 c List.mem_cons_self] at hc
        cases hc
    | cons x s => exact hhead

theorem eq_code_of_masked (h : style.masked line = a ++ (shown u ++ b)) :
    line = code a ++ (u ++ code b) := by
  rw [← code_masked style line, h, MaskedText.code_append, MaskedText.code_append,
    MaskedText.code_shown]

theorem masked_swap_start (hstyle : style.IsOrdinary) (hu : IsName u) (hv : IsName v)
    (h : style.masked line = shown u ++ b) : style.masked (v ++ code b) = shown v ++ b := by
  have hline : line = u ++ code b := eq_code_of_masked (a := []) h
  rw [hline, masked_name_append hstyle hu.2] at h
  rw [masked_name_append hstyle hv.2, List.append_cancel_left h]

/-- A name that takes the place of a name leaves the mask around it alone. -/
theorem masked_swap (hstyle : style.IsOrdinary) (hu : IsName u) (hv : IsName v)
    (h : style.masked line = a ++ (shown u ++ b)) :
    style.masked (code a ++ (v ++ code b)) = a ++ (shown v ++ b) := by
  have hquotes := hstyle.backslash
  induction line using style.readInduction generalizing a with
  | nil => exact absurd h.symm (append_shown_ne_nil hu)
  | comment c rest hcomment =>
      have hline := eq_code_of_masked h
      cases a with
      | nil => exact masked_swap_start hstyle hu hv h
      | cons x a =>
          have hswap := commentStarts_swap hstyle hu hv (code (x :: a)) (code b)
          rw [← hline, hcomment] at hswap
          rw [masked_of_commentStarts hcomment, hline, MaskedText.shown_append,
            MaskedText.shown_append] at h
          obtain ⟨hfront, hrest⟩ := List.append_inj h (by simp)
          have hwhole : style.masked (code (x :: a) ++ (v ++ code b)) =
              shown (code (x :: a) ++ (v ++ code b)) := masked_of_commentStarts hswap
          rw [hwhole, MaskedText.shown_append, MaskedText.shown_append, hfront,
            List.append_cancel_left hrest]
  | plain c rest hcomment hquote ih =>
      have hline := eq_code_of_masked h
      cases a with
      | nil => exact masked_swap_start hstyle hu hv h
      | cons x a =>
          have hswap := commentStarts_swap hstyle hu hv (code (x :: a)) (code b)
          rw [← hline, hcomment] at hswap
          rw [masked_cons_of_plain hcomment hquote] at h
          obtain ⟨rfl, hrest⟩ := List.cons.inj h
          have hwhole : style.masked (code ((c, c) :: a) ++ (v ++ code b)) =
              (c, c) :: style.masked (code a ++ (v ++ code b)) :=
            masked_cons_of_plain hswap hquote
          rw [hwhole, ih hrest]
          rfl
  | closed quote interior after hquote hliteral ih =>
      rw [masked_of_closed hquotes hliteral] at h
      obtain ⟨a', rfl, hafter⟩ := exists_append_of_not_isNamePart
        (fun x hx => not_isNamePart_literal hstyle hquote hx) hu h
      rw [eq_code_of_masked hafter] at hliteral
      have hliteral' : code ((quote, quote) :: (hidden interior ++ [(quote, quote)])) =
          quote :: (interior ++ [quote]) := by
        change quote :: code (hidden interior ++ [(quote, quote)]) = _
        rw [MaskedText.code_append, code_hidden]
        rfl
      rw [MaskedText.code_append, hliteral', List.append_assoc,
        masked_of_closed hquotes (hliteral.swap hstyle hu hv), ih hafter, List.append_assoc]
  | cutOff quote rest hquote hcomment hopen =>
      rw [masked_of_staysOpen hquotes hcomment hopen, ← List.append_nil (_ :: _)] at h
      have hnone : ∀ x ∈ (quote, quote) :: hidden rest, isNamePart x.2 = false :=
        List.forall_mem_cons.mpr
          ⟨not_isNamePart_quote hstyle hquote, fun x hx => not_isNamePart_hidden hx⟩
      obtain ⟨a', -, hnil⟩ := exists_append_of_not_isNamePart hnone hu h
      exact absurd hnil.symm (append_shown_ne_nil hu)

theorem masked_rename (hstyle : style.IsOrdinary) (hword : IsName word) (hnew : IsName new)
    (h : style.masked line = a ++ rs.flatten) :
    style.masked (code (a ++ (rs.map (rename word new)).flatten)) =
      a ++ (rs.map (rename word new)).flatten := by
  induction rs generalizing a line with
  | nil =>
      rw [List.map_nil, ← h, code_masked]
  | cons run rs ih =>
      rw [List.flatten_cons] at h
      rw [List.map_cons, List.flatten_cons, ← List.append_assoc]
      by_cases hsame : run = shown word
      · subst hsame
        rw [MaskedText.rename_shown]
        apply ih
        rw [List.append_assoc]
        exact masked_swap hstyle hword hnew h
      · rw [MaskedText.rename_of_ne hsame]
        apply ih
        rw [h, List.append_assoc]

end Swaps

section Places

/-- Beside a part of a name that is seen, nothing is hidden. -/
def Borders (x y : Char × Char) : Prop :=
  (isNamePart x.2 = true → y.2 = y.1) ∧ (isNamePart y.2 = true → x.2 = x.1)

theorem isChain_borders_of_shown (h : ∀ x ∈ a, x.2 = x.1) : a.IsChain Borders := by
  apply List.Pairwise.isChain
  apply List.pairwise_of_forall_mem_list
  exact fun x hx y hy => ⟨fun _ => h y hy, fun _ => h x hx⟩

theorem isChain_borders_of_not_isNamePart (h : ∀ x ∈ a, isNamePart x.2 = false) :
    a.IsChain Borders := by
  apply List.Pairwise.isChain
  apply List.pairwise_of_forall_mem_list
  intro x hx y hy
  rw [Borders, h x hx, h y hy]
  exact ⟨nofun, nofun⟩

theorem shows_head (hquotes : '\\' ∉ style.quotes) {y : Char × Char}
    (hy : y ∈ (style.masked line).head?) : y.2 = y.1 := by
  have hmask : (style.maskLiterals line).head? = some y.2 := by
    rw [← mask_masked, mask, List.head?_map, Option.mem_def.mp hy]
    rfl
  have hcode : line.head? = some y.1 := by
    rw [← code_masked style line, code, List.head?_map, Option.mem_def.mp hy]
    rfl
  have hhead := head?_maskLiterals hquotes line
  rw [hmask, hcode] at hhead
  exact Option.some.inj hhead

theorem isChain_masked (hstyle : style.IsOrdinary) (line : Text) :
    (style.masked line).IsChain Borders := by
  have hquotes := hstyle.backslash
  induction line using style.readInduction with
  | nil => exact List.isChain_nil
  | comment c rest hcomment =>
      rw [masked_of_commentStarts hcomment]
      apply isChain_borders_of_shown
      intro x hx
      obtain ⟨c, -, rfl⟩ := List.mem_map.mp hx
      rfl
  | plain c rest hcomment hquote ih =>
      rw [masked_cons_of_plain hcomment hquote]
      refine List.isChain_cons.mpr ⟨fun y hy => ⟨fun _ => ?_, fun _ => rfl⟩, ih⟩
      exact shows_head hquotes hy
  | closed quote interior after hquote hliteral ih =>
      rw [masked_of_closed hquotes hliteral]
      have hnone {x : Char × Char}
          (hx : x ∈ (quote, quote) :: (hidden interior ++ [(quote, quote)])) :
          isNamePart x.2 = false := not_isNamePart_literal hstyle hquote hx
      refine List.isChain_append.mpr
        ⟨isChain_borders_of_not_isNamePart fun x hx => hnone hx, ih, fun x hx y hy => ⟨?_, ?_⟩⟩
      · rw [hnone (List.mem_of_getLast? hx)]
        exact nofun
      · intro _
        rw [← List.cons_append, List.getLast?_concat, Option.mem_some_iff] at hx
        rw [← hx]
  | cutOff quote rest hquote hcomment hopen =>
      rw [masked_of_staysOpen hquotes hcomment hopen]
      apply isChain_borders_of_not_isNamePart
      exact List.forall_mem_cons.mpr
        ⟨not_isNamePart_quote hstyle hquote, fun x hx => not_isNamePart_hidden hx⟩

open Classical in
theorem getElem?_masked (hquotes : '\\' ∉ style.quotes) (line : Text) (k : Nat) :
    (style.masked line)[k]? =
      (line)[k]?.map fun c => (c, if style.Shows line k then c else maskChar) := by
  rw [masked, List.zip, List.getElem?_zipWith, getElem?_maskLiterals_eq hquotes]
  cases (line)[k]? <;> rfl

theorem not_isNamePart_of_isMasked {x : Char × Char} (hx : x.2 = x.1 ∨ x.2 = maskChar)
    (hcode : isNamePart x.1 = false) : isNamePart x.2 = false := by
  rcases hx with hshows | hhides
  · rwa [hshows]
  · rw [hhides]
    decide

theorem isRunAt_of_isWordAt (hquotes : '\\' ∉ style.quotes) (hword : IsName word)
    (h : style.IsWordAt line word i) : IsRunAt word (style.masked line) i := by
  obtain ⟨rest, hrest⟩ := h.occurs
  have hmasked := isMasked_masked style line
  have hlength : i < line.length := by
    have hsplit := congrArg List.length hrest
    have hpositive := List.length_pos_of_ne_nil hword.1
    rw [List.length_append, List.length_drop] at hsplit
    omega
  have hmiddle : ((style.masked line).drop i).take word.length = shown word := by
    refine List.ext_getElem? fun k => ?_
    by_cases hk : k < word.length
    · have hat : (line)[i + k]? = (word)[k]? := by
        rw [← List.getElem?_drop, ← hrest, List.getElem?_append_left hk]
      have hshows := h.shows (i + k) (Nat.le_add_right i k) (Nat.add_lt_add_left hk i)
      rw [List.getElem?_take_of_lt hk, List.getElem?_drop, getElem?_masked hquotes, hat, shown,
        List.getElem?_map]
      simp only [if_pos hshows]
    · rw [List.getElem?_eq_none, List.getElem?_eq_none]
      · simpa using hk
      · rw [List.length_take]
        omega
  refine ⟨(style.masked line).take i, (style.masked line).drop (i + word.length), ?_, ?_,
    fun x hx => ?_, fun y hy => ?_⟩
  · rw [← hmiddle, ← List.drop_drop, List.take_append_drop, List.take_append_drop]
  · rw [List.length_take, ← MaskedText.length_code, code_masked]
    omega
  · have hmem := List.mem_of_mem_take (List.mem_of_getLast? hx)
    apply not_isNamePart_of_isMasked (hmasked x hmem)
    apply h.before
    rw [← code_masked style line, code, ← List.map_take, List.getLast?_map, Option.mem_def.mp hx]
    rfl
  · have hmem := List.mem_of_mem_drop (List.mem_of_mem_head? hy)
    apply not_isNamePart_of_isMasked (hmasked y hmem)
    apply h.behind
    rw [← code_masked style line, code, ← List.map_drop, List.head?_map, Option.mem_def.mp hy]
    rfl

theorem isWordAt_of_isRunAt (hstyle : style.IsOrdinary) (hword : IsName word)
    (h : IsRunAt word (style.masked line) i) : style.IsWordAt line word i := by
  obtain ⟨a, b, hsplit, rfl, hbefore, hbehind⟩ := h
  have hline := eq_code_of_masked hsplit
  have hlength : a.length = (code a).length := (MaskedText.length_code a).symm
  have hchain := isChain_masked hstyle line
  rw [hsplit] at hchain
  obtain ⟨-, hright, hleft⟩ := List.isChain_append.mp hchain
  have hlast := (List.isChain_append.mp hright).2.2
  have hne := MaskedText.shown_ne_nil hword
  have hparts := MaskedText.isNamePart_of_mem_shown hword
  refine ⟨?_, fun k hk hlt => ?_, fun c hc => ?_, fun c hc => ?_⟩
  · rw [hline, hlength, List.drop_left]
    exact List.prefix_append _ _
  · by_contra hhidden
    obtain ⟨j, rfl⟩ := Nat.exists_eq_add_of_le hk
    have hj : j < word.length := Nat.lt_of_add_lt_add_left hlt
    have hat : (style.masked line)[a.length + j]? = some (word[j], word[j]) := by
      rw [hsplit, List.getElem?_append_right hk, Nat.add_sub_cancel_left,
        List.getElem?_append_left (by simpa using hj), shown, List.getElem?_map,
        List.getElem?_eq_getElem hj]
      rfl
    rw [getElem?_masked hstyle.backslash] at hat
    obtain ⟨c, -, hc⟩ := Option.map_eq_some_iff.mp hat
    rw [if_neg hhidden] at hc
    have hpart := hword.2 _ (List.getElem_mem hj)
    rw [← (Prod.mk.inj hc).2] at hpart
    cases hpart
  · rw [hline, hlength, List.take_left, code, List.getLast?_map] at hc
    obtain ⟨x, hx, rfl⟩ := Option.map_eq_some_iff.mp hc
    have hborders := hleft x hx ((shown word).head hne)
      (by rw [List.head?_append, List.head?_eq_some_head hne]; rfl)
    rw [← hborders.2 (hparts _ (List.head_mem hne))]
    exact hbefore x hx
  · rw [hline, hlength, ← List.drop_drop, List.drop_left, List.drop_left, code,
      List.head?_map] at hc
    obtain ⟨y, hy, rfl⟩ := Option.map_eq_some_iff.mp hc
    have hborders := hlast ((shown word).getLast hne) (List.getLast?_eq_some_getLast hne) y hy
    rw [← hborders.1 (hparts _ (List.getLast_mem hne))]
    exact hbehind y hy

end Places

section Renaming

theorem isWordAt_iff (hstyle : style.IsOrdinary) (hword : IsName word) :
    style.IsWordAt line word i ↔
      ∃ front back, runs (style.masked line) = front ++ shown word :: back ∧
        i = front.flatten.length := by
  rw [← MaskedText.isRunAt_iff hword]
  exact ⟨isRunAt_of_isWordAt hstyle.backslash hword, isWordAt_of_isRunAt hstyle hword⟩

theorem shown_mem_runs_iff (hstyle : style.IsOrdinary) (hword : IsName word) :
    shown word ∈ runs (style.masked line) ↔ ∃ i, style.IsWordAt line word i := by
  rw [List.mem_iff_append]
  constructor
  · rintro ⟨front, back, hruns⟩
    exact ⟨_, (isWordAt_iff hstyle hword).mpr ⟨front, back, hruns, rfl⟩⟩
  · rintro ⟨i, hi⟩
    obtain ⟨front, back, hruns, -⟩ := (isWordAt_iff hstyle hword).mp hi
    exact ⟨front, back, hruns⟩

theorem replaceWord_eq (hword : IsName word) (new : Text) (h : AreRuns rs)
    (hline : style.masked line = rs.flatten) :
    style.replaceWord line word new = code (rs.map (rename word new)).flatten := by
  have hmasked := isMasked_masked style line
  rw [hline] at hmasked
  have hrenamed : replaceMatches ([] ++ code rs.flatten) (fun _ => new) 0
      ((wholeWord word).findFrom 0 0 none (mask rs.flatten)) =
        code (rs.map (rename word new)).flatten :=
    h.replaceMatches_eq hmasked hword [] nofun
  rwa [← hline, code_masked, mask_masked] at hrenamed

theorem runs_replaceWord (hstyle : style.IsOrdinary) (hword : IsName word) (hnew : IsName new)
    (line : Text) : runs (style.masked (style.replaceWord line word new)) =
      (runs (style.masked line)).map (rename word new) := by
  have hruns := MaskedText.areRuns_runs (style.masked line)
  have hline : style.masked line = (runs (style.masked line)).flatten :=
    (MaskedText.flatten_runs _).symm
  rw [replaceWord_eq hword new hruns hline]
  have hrenamed := masked_rename (a := []) hstyle hword hnew hline
  rw [List.nil_append] at hrenamed
  rw [hrenamed]
  exact (hruns.map_rename hword hnew).runs_flatten

theorem rename_rename {run : MaskedText} (hrun : run ≠ shown new) :
    rename new word (rename word new run) = run := by
  by_cases hsame : run = shown word
  · rw [hsame, MaskedText.rename_shown, MaskedText.rename_shown]
  · rw [MaskedText.rename_of_ne hsame, MaskedText.rename_of_ne hrun]

end Renaming

/-- A word is replaced wherever it stands whole and outside the interiors of literals, and nowhere
else. It is gone then, and it can be put back if the line did not have the new word before. -/
theorem replaceWord_spec {a : Analyzer} (ha : a ∈ Registry.builtin.analyzers)
    (hword : IsName word) (hnew : IsName new) (hne : word ≠ new) (line : Text) :
    let style := a.profile.style
    let renamed := style.replaceWord line word new
    (∃ parts, line = Text.joinWith word parts ∧ renamed = Text.joinWith new parts ∧
        ∀ i, style.IsWordAt line word i ↔ i ∈ Text.joints word parts) ∧
      (∀ i, ¬style.IsWordAt renamed word i) ∧
      ((∀ i, ¬style.IsWordAt line new i) → style.replaceWord renamed new word = line) := by
  intro style renamed
  have hstyle : style.IsOrdinary := Registry.isOrdinary_of_mem_builtin a ha
  have hruns := MaskedText.areRuns_runs (style.masked line)
  have hflatten := MaskedText.flatten_runs (style.masked line)
  have hrenamed : renamed = code ((runs (style.masked line)).map (rename word new)).flatten :=
    replaceWord_eq hword new hruns hflatten.symm
  have hafter := runs_replaceWord hstyle hword hnew line
  refine ⟨?_, fun i hi => ?_, fun hnone => ?_⟩
  · obtain ⟨parts, -, hparts, hparts', hplaces⟩ :=
      MaskedText.exists_parts word new (runs (style.masked line))
    rw [hflatten, code_masked] at hparts
    refine ⟨parts, hparts, hrenamed.trans hparts', fun i => ?_⟩
    rw [hplaces, isWordAt_iff hstyle hword]
  · have hmem := (shown_mem_runs_iff hstyle hword).mpr ⟨i, hi⟩
    rw [hafter] at hmem
    obtain ⟨run, -, hrun⟩ := List.mem_map.mp hmem
    by_cases hsame : run = shown word
    · rw [hsame, MaskedText.rename_shown] at hrun
      exact hne (MaskedText.shown_injective hrun).symm
    · rw [MaskedText.rename_of_ne hsame] at hrun
      exact hsame hrun
  · have hback := replaceWord_eq hnew word (MaskedText.areRuns_runs (style.masked renamed))
      (MaskedText.flatten_runs _).symm
    have hsame : (runs (style.masked line)).map (rename new word ∘ rename word new) =
        runs (style.masked line) := by
      refine (List.map_congr_left fun run hrun => ?_).trans (List.map_id' _)
      apply rename_rename
      rintro rfl
      obtain ⟨i, hi⟩ := (shown_mem_runs_iff hstyle hnew).mp hrun
      exact hnone i hi
    rw [hback, hafter, List.map_map, hsame, hflatten, code_masked]

def namedLine : Text := "a = \"a\" + a1 + $a + a;".toList

theorem replaceWord_spec_namedLine : ∃ a ∈ Registry.builtin.analyzers,
    IsName ['a'] ∧ IsName ['b'] ∧ ['a'] ≠ ['b'] ∧
      a.profile.style.replaceWord namedLine ['a'] ['b'] = "b = \"a\" + a1 + $a + b;".toList ∧
      (∀ i, ¬a.profile.style.IsWordAt "b = \"a\" + a1 + $a + b;".toList ['a'] i) ∧
      (∀ i, ¬a.profile.style.IsWordAt namedLine ['b'] i) ∧
      a.profile.style.replaceWord "b = \"a\" + a1 + $a + b;".toList ['b'] ['a'] = namedLine := by
  let a : Analyzer := ⟨JavaScript.profile, JavaScript.rules⟩
  have ha : a ∈ Registry.builtin.analyzers := by simp [Registry.builtin, a]
  have hword : IsName ['a'] := ⟨List.cons_ne_nil _ _, List.forall_mem_singleton.mpr (by decide)⟩
  have hnew : IsName ['b'] := ⟨List.cons_ne_nil _ _, List.forall_mem_singleton.mpr (by decide)⟩
  have hne : ['a'] ≠ ['b'] := by decide
  have hrenamed : a.profile.style.replaceWord namedLine ['a'] ['b'] =
      "b = \"a\" + a1 + $a + b;".toList := by decide +kernel
  have hnone : ∀ i, ¬a.profile.style.IsWordAt namedLine ['b'] i := by
    intro i hi
    have hmem := List.mem_of_mem_drop (hi.occurs.subset List.mem_cons_self)
    exact absurd hmem (by decide +kernel)
  obtain ⟨-, hgone, hback⟩ := replaceWord_spec ha hword hnew hne namedLine
  rw [hrenamed] at hgone hback
  exact ⟨a, ha, hword, hnew, hne, hrenamed, hgone, hnone, hback hnone⟩

end LiteralStyle

end LineLint
