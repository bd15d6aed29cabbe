import LineLint.LiteralMask
import Mathlib.Data.List.Basic

/-!
# Literals as parts of a line

A literal is a part of its line that opens with a quote, and it closes with a quote unless the line
ends first. The comment plays no part in where they are: the code of a line, without its comment,
has the same literals.
-/

namespace LineLint

namespace LiteralStyle

variable {style : LiteralStyle} {delimiter line rest : Text} {quote : Char} {position : Nat}

section Delimiters

/-- A delimiter is a run of its quote, with which the literal opens. -/
theorem delimiterAt_spec (style : LiteralStyle) (quote : Char) (rest : Text) :
    ∃ opened, style.delimiterAt quote (quote :: rest) = List.replicate (opened + 1) quote ∧
      List.replicate opened quote <+: rest := by
  simp only [delimiterAt]
  split_ifs with htriple
  · refine ⟨2, rfl, ?_⟩
    have hprefix := List.isPrefixOf_iff_prefix.mp (Bool.and_eq_true_iff.mp htriple).2
    exact (List.cons_prefix_cons.mp hprefix).2
  · exact ⟨0, rfl, List.nil_prefix⟩

theorem delimiterAt_take {n : Nat}
    (hn : (style.delimiterAt quote (quote :: rest)).length ≤ n + 1) :
    style.delimiterAt quote (quote :: rest.take n) = style.delimiterAt quote (quote :: rest) := by
  have hprefix : [quote, quote, quote].isPrefixOf (quote :: rest.take n) = true ↔
      [quote, quote, quote].isPrefixOf (quote :: rest) = true ∧ 3 ≤ n + 1 := by
    rw [List.isPrefixOf_iff_prefix, List.isPrefixOf_iff_prefix, ← List.take_succ_cons,
      List.prefix_take_iff]
    rfl
  simp only [delimiterAt, Bool.and_eq_true, hprefix] at hn ⊢
  split_ifs at hn ⊢ with htaken htriple htriple
  · rfl
  · exact absurd ⟨htaken.1, htaken.2.1⟩ htriple
  · exact absurd ⟨htriple.1, htriple.2, hn⟩ htaken
  · rfl

theorem closeLength?_eq_some {t : Text} {n : Nat} (h : closeLength? delimiter t = some n) :
    ∃ body after, t = body ++ delimiter ++ after ∧ n = (body ++ delimiter).length := by
  fun_induction closeLength? delimiter t generalizing n with
  | case1 => cases h
  | case2 => cases h
  | case3 c rest ih =>
      obtain ⟨k, hk, rfl⟩ := Option.map_eq_some_iff.mp h
      obtain ⟨body, after, rfl, rfl⟩ := ih hk
      exact ⟨'\\' :: c :: body, after, by simp, by simp⟩
  | case4 c rest _ _ hcloses =>
      obtain ⟨after, hafter⟩ := List.isPrefixOf_iff_prefix.mp hcloses
      exact ⟨[], after, hafter.symm, (Option.some.inj h).symm⟩
  | case5 c rest _ _ _ ih =>
      obtain ⟨k, hk, rfl⟩ := Option.map_eq_some_iff.mp h
      obtain ⟨body, after, rfl, rfl⟩ := ih hk
      exact ⟨c :: body, after, by simp, by simp⟩

theorem closeLength?_cons_of_ne {c : Char} (hc : c ≠ '\\') (rest : Text) :
    closeLength? delimiter (c :: rest) =
      if delimiter.isPrefixOf (c :: rest) then some delimiter.length
      else (closeLength? delimiter rest).map (· + 1) :=
  closeLength?.eq_4 delimiter c rest (fun h => absurd h hc) (fun _ _ h => absurd h hc)

theorem ne_backslash {c : Char} (hlast : c = '\\' → rest = [] → False)
    (hescape : ∀ x others, c = '\\' → rest = x :: others → False) : c ≠ '\\' := by
  intro hc
  cases rest with
  | nil => exact hlast hc rfl
  | cons x others => exact hescape x others hc rfl

/-- Where a literal closes is told by its own characters. -/
theorem closeLength?_take {t : Text} {n m : Nat} (hdelimiter : delimiter ≠ [])
    (h : closeLength? delimiter t = some n) (hm : n ≤ m) :
    closeLength? delimiter (t.take m) = some n := by
  have hpositive : 0 < delimiter.length := List.length_pos_iff.mpr hdelimiter
  fun_induction closeLength? delimiter t generalizing n m with
  | case1 => cases h
  | case2 => cases h
  | case3 c rest ih =>
      obtain ⟨k, hk, rfl⟩ := Option.map_eq_some_iff.mp h
      obtain ⟨m, rfl⟩ : ∃ j, m = j + 2 := ⟨m - 2, by omega⟩
      rw [List.take_succ_cons, List.take_succ_cons, closeLength?, ih hk (by omega)]
      rfl
  | case4 c rest hlast hescape hcloses =>
      obtain rfl := Option.some.inj h
      obtain ⟨m, rfl⟩ : ∃ j, m = j + 1 := ⟨m - 1, by omega⟩
      have htaken : delimiter.isPrefixOf (c :: rest.take m) = true := by
        rw [List.isPrefixOf_iff_prefix] at hcloses ⊢
        rw [← List.take_succ_cons, List.prefix_take_iff]
        exact ⟨hcloses, hm⟩
      rw [List.take_succ_cons, closeLength?_cons_of_ne (ne_backslash hlast hescape), if_pos htaken]
  | case5 c rest hlast hescape hcloses ih =>
      obtain ⟨k, hk, rfl⟩ := Option.map_eq_some_iff.mp h
      obtain ⟨m, rfl⟩ : ∃ j, m = j + 1 := ⟨m - 1, by omega⟩
      have htaken : ¬delimiter.isPrefixOf (c :: rest.take m) = true := by
        rw [List.isPrefixOf_iff_prefix] at hcloses ⊢
        rw [← List.take_succ_cons, List.prefix_take_iff]
        exact fun htaken => hcloses htaken.1
      rw [List.take_succ_cons, closeLength?_cons_of_ne (ne_backslash hlast hescape), if_neg htaken,
        ih hk (by omega)]
      rfl

end Delimiters

section Spans

/-- A part of a line that opens with a quote, and ends with one unless it ends with the line. -/
structure IsQuoted (style : LiteralStyle) (t : Text) (s : Span) : Prop where
  start_lt_stop : s.start < s.stop
  stop_le : s.stop ≤ t.length
  first : ∃ quote ∈ style.quotes, t[s.start]? = some quote
  last : s.stop < t.length → ∃ quote ∈ style.quotes, t[s.stop - 1]? = some quote

theorem IsQuoted.of_drop {n : Nat} {s : Span} (h : IsQuoted style (line.drop n) s) :
    IsQuoted style line ⟨n + s.start, n + s.stop⟩ := by
  have hlt := h.start_lt_stop
  have hle := h.stop_le
  rw [List.length_drop] at hle
  refine ⟨?_, ?_, ?_, fun hstop => ?_⟩
  · exact Nat.add_lt_add_left hlt n
  · change n + s.stop ≤ line.length
    omega
  · obtain ⟨quote, hquote, hfirst⟩ := h.first
    exact ⟨quote, hquote, by rw [← hfirst, List.getElem?_drop]⟩
  · change n + s.stop < line.length at hstop
    obtain ⟨quote, hquote, hlast⟩ := h.last (by rw [List.length_drop]; omega)
    refine ⟨quote, hquote, ?_⟩
    rw [← hlast, List.getElem?_drop]
    congr 1
    change n + s.stop - 1 = n + (s.stop - 1)
    omega

theorem isQuoted_of_closes (hquote : quote ∈ style.quotes) {n : Nat}
    (h : closeLength? (style.delimiterAt quote (quote :: rest))
      (rest.drop ((style.delimiterAt quote (quote :: rest)).length - 1)) = some n) :
    IsQuoted style (quote :: rest)
      ⟨0, (style.delimiterAt quote (quote :: rest)).length - 1 + n + 1⟩ := by
  obtain ⟨opened, hdelimiter, hopens⟩ := style.delimiterAt_spec quote rest
  obtain ⟨body, after, hbody, hn⟩ := closeLength?_eq_some h
  rw [hdelimiter, List.length_replicate, Nat.add_sub_cancel] at hbody ⊢
  rw [hdelimiter, List.length_append, List.length_replicate] at hn
  have hopened : opened ≤ rest.length := by simpa using hopens.length_le
  have hlength := congrArg List.length hbody
  simp only [List.length_drop, List.length_append, List.length_replicate] at hlength
  refine ⟨Nat.succ_pos _, ?_, ⟨quote, hquote, rfl⟩, fun _ => ?_⟩
  · change opened + n + 1 ≤ rest.length + 1
    omega
  · have hlast : rest[opened + (n - 1)]? = some quote := by
      rw [← List.getElem?_drop, hbody, List.append_assoc, List.getElem?_append_right (by omega),
        List.getElem?_append_left (by rw [List.length_replicate]; omega), List.getElem?_replicate,
        if_pos (by omega)]
    refine ⟨quote, hquote, ?_⟩
    rw [← hlast, Nat.add_sub_cancel, show opened + n = opened + (n - 1) + 1 by omega]
    exact List.getElem?_cons_succ

theorem exists_isQuoted_of_mem_scanFrom {s : Span} (h : s ∈ (style.scanFrom position line).spans) :
    ∃ part, s = ⟨position + part.start, position + part.stop⟩ ∧ IsQuoted style line part := by
  fun_induction scanFrom style position line with
  | case1 => cases h
  | case2 => cases h
  | case3 position c rest _ _ ih =>
      obtain ⟨part, rfl, hpart⟩ := ih h
      refine ⟨⟨1 + part.start, 1 + part.stop⟩, by simp only [Nat.add_assoc], ?_⟩
      exact IsQuoted.of_drop (n := 1) hpart
  | case4 position c rest _ hquote =>
      obtain rfl := List.mem_singleton.mp h
      refine ⟨⟨0, rest.length + 1⟩, rfl, by simp, by simp, ⟨c, by simpa using hquote, rfl⟩, ?_⟩
      exact fun hlt => absurd hlt (Nat.lt_irrefl _)
  | case5 position c rest _ hquote delimiter opened n hcloses stop scan ih =>
      rcases List.mem_cons.mp h with rfl | h
      · refine ⟨⟨0, opened + n + 1⟩, ?_, isQuoted_of_closes (by simpa using hquote) hcloses⟩
        simp only [stop, Span.mk.injEq]
        omega
      · obtain ⟨part, rfl, hpart⟩ := ih h
        refine ⟨⟨opened + n + 1 + part.start, opened + n + 1 + part.stop⟩, ?_,
          IsQuoted.of_drop (by rwa [List.drop_succ_cons])⟩
        simp only [stop, Span.mk.injEq]
        omega

theorem isQuoted_of_mem_literals {s : Span} (h : s ∈ style.literals line) :
    IsQuoted style line s := by
  obtain ⟨part, rfl, hpart⟩ := exists_isQuoted_of_mem_scanFrom h
  simpa using hpart

end Spans

section Code

theorem commentStarts_take {n : Nat} (h : style.commentStarts line = false) :
    style.commentStarts (line.take n) = false := by
  unfold commentStarts at h ⊢
  cases hmark : style.lineComment with
  | none => rfl
  | some mark =>
      rw [hmark] at h
      simp only [Option.any_some] at h ⊢
      rw [Bool.eq_false_iff, Ne, List.isPrefixOf_iff_prefix] at h ⊢
      exact fun hmark => h (hmark.trans (List.take_prefix n line))

theorem scanFrom_of_closes {n : Nat} (hcomment : style.commentStarts (quote :: rest) = false)
    (hquote : quote ∈ style.quotes)
    (hdelimiter : style.delimiterAt quote (quote :: rest) = delimiter)
    (hcloses : closeLength? delimiter (rest.drop (delimiter.length - 1)) = some n) :
    let stop := position + 1 + (delimiter.length - 1) + n
    let scan := style.scanFrom stop (rest.drop (delimiter.length - 1 + n))
    style.scanFrom position (quote :: rest) = ⟨⟨position, stop⟩ :: scan.spans, scan.comment⟩ := by
  intro stop scan
  subst hdelimiter
  rw [scanFrom, if_neg (by simp [hcomment]), if_neg (by simpa using hquote)]
  simp only [hcloses]
  rfl

theorem scanFrom_take {comment : Nat} (h : (style.scanFrom position line).comment = some comment) :
    position ≤ comment ∧ style.scanFrom position (line.take (comment - position)) =
      ⟨(style.scanFrom position line).spans, none⟩ := by
  fun_induction scanFrom style position line with
  | case1 => cases h
  | case2 position c rest hcomment =>
      obtain rfl := Option.some.inj h
      refine ⟨Nat.le_refl _, ?_⟩
      rw [Nat.sub_self, List.take_zero, scanFrom]
  | case3 position c rest hcomment hquote ih =>
      obtain ⟨hle, hrest⟩ := ih h
      have hcode : style.commentStarts (c :: rest.take (comment - (position + 1))) = false := by
        rw [← List.take_succ_cons]
        exact commentStarts_take (by simpa using hcomment)
      refine ⟨by omega, ?_⟩
      rw [show comment - position = comment - (position + 1) + 1 by omega, List.take_succ_cons,
        scanFrom, if_neg (by simp [hcode]), if_pos hquote, hrest]
  | case4 => cases h
  | case5 position c rest hcomment hquote delimiter opened n hcloses stop scan ih =>
      obtain ⟨hle, hrest⟩ := ih h
      obtain ⟨k, hdelimiter, -⟩ := style.delimiterAt_spec c rest
      have hlength : delimiter.length = opened + 1 := by
        simp only [opened, delimiter, hdelimiter, List.length_replicate, Nat.add_sub_cancel]
      have hcode : style.commentStarts (c :: rest.take (comment - (position + 1))) = false := by
        rw [← List.take_succ_cons]
        exact commentStarts_take (by simpa using hcomment)
      have hsame : style.delimiterAt c (c :: rest.take (comment - (position + 1))) = delimiter :=
        delimiterAt_take (by change delimiter.length ≤ _; omega)
      have hclose : closeLength? delimiter
          ((rest.take (comment - (position + 1))).drop opened) = some n := by
        rw [List.drop_take]
        exact closeLength?_take (List.ne_nil_of_length_eq_add_one hlength) hcloses (by omega)
      have hafter : (rest.take (comment - (position + 1))).drop (opened + n) =
          (rest.drop (opened + n)).take (comment - stop) := by
        rw [List.drop_take]
        congr 1
        omega
      refine ⟨by omega, ?_⟩
      rw [show comment - position = comment - (position + 1) + 1 by omega, List.take_succ_cons,
        scanFrom_of_closes hcode (by simpa using hquote) hsame hclose, hafter, hrest]

theorem literals_splitComment_fst (style : LiteralStyle) (line : Text) :
    style.literals (style.splitComment line).1 = style.literals line := by
  unfold splitComment
  split
  · rfl
  · rename_i comment hcomment
    have htake := (scanFrom_take hcomment).2
    rw [Nat.sub_zero] at htake
    simp only [literals, scan, htake]

end Code

section Masked

theorem getElem?_maskLiterals (style : LiteralStyle) (t : Text) (i : Nat) :
    (style.maskLiterals t)[i]? = t[i]?.map fun c =>
      if (style.literals t).any (fun s => style.hides t s i) then maskChar else c :=
  List.getElem?_mapIdx

/-- A character of the masked line is that of the line, or it stands inside a literal. -/
theorem eq_or_isInside {t : Text} {i : Nat} {c m : Char} (hc : t[i]? = some c)
    (hm : (style.maskLiterals t)[i]? = some m) :
    m = c ∨ m = maskChar ∧ ∃ s ∈ style.literals t, s.start < i ∧ i < s.stop := by
  rw [getElem?_maskLiterals, hc, Option.map_some, Option.some.injEq] at hm
  split_ifs at hm with hhides
  · obtain ⟨s, hs, hhides⟩ := List.any_eq_true.mp hhides
    refine Or.inr ⟨hm.symm, s, hs, ?_⟩
    simp only [hides, Bool.and_eq_true, Bool.or_eq_true, decide_eq_true_eq] at hhides
    omega
  · exact Or.inl hm.symm

end Masked

end LiteralStyle

end LineLint
