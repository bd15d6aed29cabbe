import LineLint.Proofs.LineRewrites
import LineLint.Proofs.LiteralSpans

/-!
# Scanning a text part by part

A character that is no quote and starts no comment is passed over, and a literal that closes is
passed over as a whole; what follows is scanned and masked as if it stood alone.
-/

namespace LineLint

/-- What the first text starts with, up to a space or a tab, the second one starts with too. -/
def Text.StartsAs (new old : Text) : Prop :=
  ∀ u : Text, (∀ c ∈ u, isSpaceOrTab c = false) → u <+: new → u <+: old

namespace Text

variable {new old s t gap gap' : Text} {x y : Char}

theorem prefix_append_cases {α : Type} {u xs ys : List α} (h : u <+: xs ++ ys) :
    u <+: xs ∨ ∃ v, u = xs ++ v ∧ v <+: ys := by
  obtain ⟨rest, hrest⟩ := h
  rcases List.append_eq_append_iff.mp hrest with ⟨middle, rfl, -⟩ | ⟨middle, rfl, rfl⟩
  · exact Or.inl (List.prefix_append _ _)
  · exact Or.inr ⟨middle, rfl, List.prefix_append _ _⟩

theorem eq_of_append_cons {α : Type} {s t rest more : List α} {x : α} (hs : x ∉ s) (ht : x ∉ t)
    (h : s ++ x :: rest = t ++ x :: more) : s = t := by
  induction s generalizing t with
  | nil =>
      cases t with
      | nil => rfl
      | cons y t => exact absurd (by rw [(List.cons.inj h).1]; exact List.mem_cons_self) ht
  | cons y s ih =>
      cases t with
      | nil => exact absurd (by rw [(List.cons.inj h).1]; exact List.mem_cons_self) hs
      | cons z t =>
          obtain ⟨rfl, hrest⟩ := List.cons.inj h
          rw [ih (fun hx => hs (List.mem_cons_of_mem y hx))
            (fun hx => ht (List.mem_cons_of_mem y hx)) hrest]

/-- What holds not a character is told by what comes before it. -/
theorem prefix_append_cons_iff {α : Type} {u s t : List α} {x : α} (hu : x ∉ u) :
    u <+: s ++ x :: t ↔ u <+: s := by
  refine ⟨fun h => ?_, fun h => h.trans (List.prefix_append _ _)⟩
  rcases prefix_append_cases h with hwithin | ⟨v, rfl, hv⟩
  · exact hwithin
  · cases v with
    | nil => simp
    | cons y v =>
        obtain ⟨rfl, -⟩ := List.cons_prefix_cons.mp hv
        exact absurd (List.mem_append_right _ List.mem_cons_self) hu

theorem isPrefixOf_append_cons {part : Text} (hx : x ∉ part) (s rest : Text) :
    part.isPrefixOf (s ++ x :: rest) = part.isPrefixOf s := by
  rw [Bool.eq_iff_iff, List.isPrefixOf_iff_prefix, List.isPrefixOf_iff_prefix,
    prefix_append_cons_iff hx]

theorem startsWithAny_append_cons {parts : List Text} (hx : ∀ part ∈ parts, x ∉ part)
    (s rest : Text) :
    startsWithAny (s ++ x :: rest) parts = startsWithAny s parts := by
  rw [Bool.eq_iff_iff, startsWithAny, startsWithAny, List.any_eq_true, List.any_eq_true]
  refine exists_congr fun part => and_congr_right fun hpart => ?_
  rw [isPrefixOf_append_cons (hx part hpart)]

theorem eq_of_leading_blanks (h : gap ++ x :: s = gap' ++ y :: t)
    (hgap : ∀ c ∈ gap, isSpaceOrTab c = true) (hgap' : ∀ c ∈ gap', isSpaceOrTab c = true)
    (hx : isSpaceOrTab x = false) (hy : isSpaceOrTab y = false) : gap = gap' := by
  have hrun {gap s : Text} {x : Char} (hgap : ∀ c ∈ gap, isSpaceOrTab c = true)
      (hx : isSpaceOrTab x = false) : (gap ++ x :: s).takeWhile isSpaceOrTab = gap := by
    rw [List.takeWhile_append_of_pos hgap, List.takeWhile_cons_of_neg (by simp [hx]),
      List.append_nil]
  rw [← hrun (s := s) hgap hx, h, hrun hgap' hy]

theorem eq_of_trailing_blanks (h : s ++ x :: gap = t ++ y :: gap')
    (hgap : ∀ c ∈ gap, isSpaceOrTab c = true) (hgap' : ∀ c ∈ gap', isSpaceOrTab c = true)
    (hx : isSpaceOrTab x = false) (hy : isSpaceOrTab y = false) : gap = gap' := by
  have hback := congrArg List.reverse h
  simp only [List.reverse_append, List.reverse_cons, List.append_assoc, List.singleton_append]
    at hback
  refine List.reverse_injective (eq_of_leading_blanks hback ?_ ?_ hx hy)
  · exact fun c hc => hgap c (List.mem_reverse.mp hc)
  · exact fun c hc => hgap' c (List.mem_reverse.mp hc)

theorem startsAs_of_prefix (h : new <+: old) : StartsAs new old := fun _ _ hu => hu.trans h

theorem StartsAs.append_left (h : StartsAs new old) (front : Text) :
    StartsAs (front ++ new) (front ++ old) := by
  intro u hu hnew
  rcases prefix_append_cases hnew with hwithin | ⟨v, rfl, hv⟩
  · exact hwithin.trans (List.prefix_append _ _)
  · refine (List.prefix_append_right_inj _).mpr ?_
    exact h v (fun c hc => hu c (List.mem_append_right _ hc)) hv

theorem startsAs_blank_cons {c : Char} (hc : isSpaceOrTab c = true) (new old : Text) :
    StartsAs (c :: new) old := by
  intro u hu hnew
  cases u with
  | nil => exact List.nil_prefix
  | cons x u =>
      obtain ⟨rfl, -⟩ := List.cons_prefix_cons.mp hnew
      rw [hu x List.mem_cons_self] at hc
      cases hc

end Text

def Span.shift (offset : Nat) (s : Span) : Span := ⟨offset + s.start, offset + s.stop⟩

def LiteralScan.shift (offset : Nat) (scan : LiteralScan) : LiteralScan :=
  ⟨scan.spans.map (Span.shift offset), scan.comment.map (offset + ·)⟩

namespace LiteralStyle

variable {style : LiteralStyle} {line rest front : Text} {quote c : Char} {position offset : Nat}

section Scan

theorem scanFrom_cons_of_plain (hcomment : style.commentStarts (c :: rest) = false)
    (hquote : c ∉ style.quotes) (position : Nat) :
    style.scanFrom position (c :: rest) = style.scanFrom (position + 1) rest := by
  rw [scanFrom, if_neg (by simp [hcomment]), if_pos (by simpa using hquote)]

theorem scanFrom_cons_of_open (hcomment : style.commentStarts (quote :: rest) = false)
    (hquote : quote ∈ style.quotes)
    (hopen : closeLength? (style.delimiterAt quote (quote :: rest))
      (rest.drop ((style.delimiterAt quote (quote :: rest)).length - 1)) = none) (position : Nat) :
    style.scanFrom position (quote :: rest) =
      ⟨[⟨position, position + rest.length + 1⟩], none⟩ := by
  rw [scanFrom, if_neg (by simp [hcomment]), if_neg (by simpa using hquote)]
  simp only [hopen]

theorem scanFrom_add (offset position : Nat) (line : Text) :
    style.scanFrom (offset + position) line = (style.scanFrom position line).shift offset := by
  fun_induction scanFrom style position line with
  | case1 => rw [scanFrom]; rfl
  | case2 position c rest hcomment => rw [scanFrom, if_pos hcomment]; rfl
  | case3 position c rest hcomment hquote ih =>
      rw [scanFrom, if_neg hcomment, if_pos hquote, Nat.add_assoc, ih]
  | case4 position c rest hcomment hquote delimiter opened hopen =>
      rw [scanFrom_cons_of_open (by simpa using hcomment) (by simpa using hquote) hopen]
      simp [LiteralScan.shift, Span.shift, Nat.add_assoc]
  | case5 position c rest hcomment hquote delimiter opened n hcloses stop scan ih =>
      rw [scanFrom_of_closes (by simpa using hcomment) (by simpa using hquote) rfl hcloses]
      have hstop : offset + position + 1 + opened + n = offset + stop := by
        simp only [stop]
        omega
      change LiteralScan.mk (⟨_, offset + position + 1 + opened + n⟩ :: (style.scanFrom
        (offset + position + 1 + opened + n) (rest.drop (opened + n))).spans)
        (style.scanFrom (offset + position + 1 + opened + n) (rest.drop (opened + n))).comment = _
      rw [hstop, ih]
      rfl

theorem scanFrom_eq_shift (position : Nat) (line : Text) :
    style.scanFrom position line = (style.scan line).shift position :=
  scanFrom_add position 0 line

end Scan

section Literals

variable {delimiter literal body after after' t more : Text}

structure IsLiteralBefore (style : LiteralStyle) (literal after : Text) : Prop where
  commentStarts_eq : style.commentStarts (literal ++ after) = false
  exists_quote : ∃ quote body n, literal = quote :: body ∧ quote ∈ style.quotes ∧
    body.length = (style.delimiterAt quote (literal ++ after)).length - 1 + n ∧
    closeLength? (style.delimiterAt quote (literal ++ after))
      ((body ++ after).drop ((style.delimiterAt quote (literal ++ after)).length - 1)) = some n

theorem IsLiteralBefore.ne_nil (h : style.IsLiteralBefore literal after) : literal ≠ [] := by
  obtain ⟨quote, body, n, rfl, -⟩ := h.exists_quote
  exact List.cons_ne_nil _ _

theorem IsLiteralBefore.scan_eq (h : style.IsLiteralBefore literal after) :
    style.scan (literal ++ after) =
      ⟨⟨0, literal.length⟩ :: ((style.scan after).shift literal.length).spans,
        ((style.scan after).shift literal.length).comment⟩ := by
  obtain ⟨hcomment, quote, body, n, rfl, hquote, hlength, hcloses⟩ := h
  rw [List.cons_append] at hcomment hcloses hlength ⊢
  have hstop : 0 + 1 + ((style.delimiterAt quote (quote :: (body ++ after))).length - 1) + n =
      (quote :: body).length := by
    rw [List.length_cons, hlength]
    omega
  have hdrop : (body ++ after).drop
      ((style.delimiterAt quote (quote :: (body ++ after))).length - 1 + n) = after := by
    rw [← hlength, List.drop_left]
  rw [scan, scanFrom_of_closes hcomment hquote rfl hcloses, hdrop, hstop, scanFrom_eq_shift]

theorem exists_isLiteralBefore (hcomment : style.commentStarts (quote :: rest) = false)
    (hquote : quote ∈ style.quotes) {n : Nat}
    (hcloses : closeLength? (style.delimiterAt quote (quote :: rest))
      (rest.drop ((style.delimiterAt quote (quote :: rest)).length - 1)) = some n) :
    ∃ body after, rest = body ++ after ∧ style.IsLiteralBefore (quote :: body) after := by
  have hbound : (style.delimiterAt quote (quote :: rest)).length - 1 + n ≤ rest.length := by
    have hquoted := (isQuoted_of_closes hquote hcloses).stop_le
    rw [List.length_cons] at hquoted
    exact Nat.le_of_succ_le_succ hquoted
  have hsplit := List.take_append_drop
    ((style.delimiterAt quote (quote :: rest)).length - 1 + n) rest
  refine ⟨_, _, hsplit.symm, ?_, quote, _, n, rfl, hquote, ?_, ?_⟩
  · rwa [List.cons_append, hsplit]
  · rw [List.cons_append, hsplit, List.length_take_of_le hbound]
  · rwa [List.cons_append, hsplit]

/-- A text that opens with a quote is a literal up to its end, or a literal before another text. -/
theorem isLiteralBefore_or_open (hcomment : style.commentStarts (quote :: rest) = false)
    (hquote : quote ∈ style.quotes) :
    (∃ body after, rest = body ++ after ∧ style.IsLiteralBefore (quote :: body) after) ∨
      style.scan (quote :: rest) = ⟨[⟨0, (quote :: rest).length⟩], none⟩ := by
  cases hclose : closeLength? (style.delimiterAt quote (quote :: rest))
      (rest.drop ((style.delimiterAt quote (quote :: rest)).length - 1)) with
  | none =>
      right
      rw [scan, scanFrom_cons_of_open hcomment hquote hclose, Nat.zero_add, List.length_cons]
  | some n => exact Or.inl (exists_isLiteralBefore hcomment hquote hclose)

structure IsSolid (style : LiteralStyle) : Prop where
  quotes : ∀ quote ∈ style.quotes, isSpaceOrTab quote = false
  mark : ∀ mark ∈ style.lineComment, mark ≠ [] ∧ ∀ c ∈ mark, isSpaceOrTab c = false

theorem commentStarts_congr (hstyle : style.IsSolid) {new old : Text}
    (hstarts : Text.StartsAs new old) (hold : style.commentStarts old = false) :
    style.commentStarts new = false := by
  unfold commentStarts at hold ⊢
  cases hmark : style.lineComment with
  | none => rfl
  | some mark =>
      rw [hmark] at hold
      simp only [Option.any_some] at hold ⊢
      rw [Bool.eq_false_iff, Ne, List.isPrefixOf_iff_prefix] at hold ⊢
      exact fun hnew => hold (hstarts mark (hstyle.mark mark hmark).2 hnew)

theorem commentStarts_blank_cons (hstyle : style.IsSolid) (hc : isSpaceOrTab c = true) :
    style.commentStarts (c :: rest) = false := by
  refine commentStarts_congr hstyle (Text.startsAs_blank_cons hc rest []) ?_
  unfold commentStarts
  cases hmark : style.lineComment with
  | none => rfl
  | some mark =>
      have hne : mark ≠ [] := (hstyle.mark mark hmark).1
      simpa [List.isPrefixOf_iff_prefix, Bool.eq_false_iff] using hne

end Literals

section Splits

variable {literal after : Text}

theorem splitComment_of_commentStarts (h : style.commentStarts (c :: rest) = true) :
    style.splitComment (c :: rest) = ([], c :: rest) := by
  rw [splitComment, scan, scanFrom, if_pos h]
  rfl

theorem splitComment_eq_of_scan (front : Text) {spans : List Span}
    (h : style.scan (front ++ rest) =
      ⟨spans, ((style.scan rest).shift front.length).comment⟩) :
    style.splitComment (front ++ rest) =
      (front ++ (style.splitComment rest).1, (style.splitComment rest).2) := by
  unfold splitComment
  rw [h]
  cases hcomment : (style.scan rest).comment with
  | none => simp [LiteralScan.shift, hcomment]
  | some position =>
      simp [LiteralScan.shift, hcomment, List.take_length_add_append, List.drop_length_add_append]

theorem scan_cons_of_plain (hcomment : style.commentStarts (c :: rest) = false)
    (hquote : c ∉ style.quotes) : style.scan ([c] ++ rest) = (style.scan rest).shift 1 := by
  rw [List.singleton_append, scan, scanFrom_cons_of_plain hcomment hquote, scanFrom_eq_shift]

theorem splitComment_cons_of_plain (hcomment : style.commentStarts (c :: rest) = false)
    (hquote : c ∉ style.quotes) :
    style.splitComment (c :: rest) =
      (c :: (style.splitComment rest).1, (style.splitComment rest).2) :=
  splitComment_eq_of_scan [c] (scan_cons_of_plain hcomment hquote)

theorem IsLiteralBefore.splitComment_eq (h : style.IsLiteralBefore literal after) :
    style.splitComment (literal ++ after) =
      (literal ++ (style.splitComment after).1, (style.splitComment after).2) :=
  splitComment_eq_of_scan literal h.scan_eq

theorem literals_cons_of_plain (hcomment : style.commentStarts (c :: rest) = false)
    (hquote : c ∉ style.quotes) :
    style.literals (c :: rest) = (style.literals rest).map (Span.shift 1) :=
  congrArg LiteralScan.spans (scan_cons_of_plain hcomment hquote)

theorem IsLiteralBefore.literals_eq (h : style.IsLiteralBefore literal after) :
    style.literals (literal ++ after) =
      ⟨0, literal.length⟩ :: (style.literals after).map (Span.shift literal.length) :=
  congrArg LiteralScan.spans h.scan_eq

end Splits

section Masks

variable {spans : List Span} {s : Span} {i : Nat} {literal after : Text}

theorem isClosed_shift (style : LiteralStyle) (front rest : Text) (s : Span) :
    style.isClosed (front ++ rest) (s.shift front.length) = style.isClosed rest s := by
  have hdrop : (front ++ rest).drop (s.shift front.length).start = rest.drop s.start :=
    List.drop_length_add_append ..
  have htake : (front ++ rest).take (s.shift front.length).stop = front ++ rest.take s.stop :=
    List.take_length_add_append ..
  have hslice : Text.slice (front ++ rest) (s.shift front.length).start
      (s.shift front.length).stop = Text.slice rest s.start s.stop := by
    rw [Text.slice, htake]
    exact List.drop_length_add_append ..
  unfold isClosed
  rw [hdrop, hslice, htake]
  cases rest.drop s.start with
  | nil => rfl
  | cons quote others =>
      -- the delimiter is shorter than the literal, so that it ends the literal itself
      have hsuffix (delimiter : Text)
          (hlength : 2 * delimiter.length ≤ (Text.slice rest s.start s.stop).length) :
          delimiter.isSuffixOf (front ++ rest.take s.stop) =
            delimiter.isSuffixOf (rest.take s.stop) := by
        rw [Bool.eq_iff_iff, List.isSuffixOf_iff_suffix, List.isSuffixOf_iff_suffix]
        refine ⟨fun h => ?_, fun h => h.trans (List.suffix_append _ _)⟩
        refine List.suffix_of_suffix_length_le h (List.suffix_append _ _) ?_
        rw [Text.slice, List.length_drop] at hlength
        omega
      simp only
      by_cases hlength : 2 * (style.delimiterAt quote (quote :: others)).length ≤
          (Text.slice rest s.start s.stop).length
      · rw [hsuffix _ hlength]
      · simp only [hlength, decide_false, Bool.false_and]

theorem hides_shift (style : LiteralStyle) (front rest : Text) (s : Span) (i : Nat) :
    style.hides (front ++ rest) (s.shift front.length) (front.length + i) =
      style.hides rest s i := by
  have hlast :
      ((s.shift front.length).stop == (front ++ rest).length) = (s.stop == rest.length) := by
    rw [Bool.eq_iff_iff, beq_iff_eq, beq_iff_eq, List.length_append]
    exact Nat.add_left_cancel_iff
  unfold hides
  rw [isClosed_shift, hlast]
  simp only [Span.shift, Nat.add_lt_add_iff_left, Nat.add_assoc]

theorem hides_shift_of_lt (hi : i < front.length) :
    style.hides line (s.shift front.length) i = false := by
  have hstart : ¬(s.shift front.length).start < i := by
    simp only [Span.shift]
    omega
  simp only [hides, hstart, decide_false, Bool.false_and]

theorem hides_of_stop_le (hstop : s.stop ≤ i) : style.hides line s i = false := by
  have hinside : ¬i + 1 < s.stop ∧ ¬i < s.stop := by omega
  simp [hides, hinside.1, hinside.2]

/-- Behind a part with literals of its own, a line is masked as if it stood alone. -/
theorem maskLiterals_append (front : Text) (spans : List Span)
    (hliterals : style.literals (front ++ rest) =
      spans ++ (style.literals rest).map (Span.shift front.length))
    (hspans : ∀ s ∈ spans, s.stop ≤ front.length) :
    style.maskLiterals (front ++ rest) =
      (front.mapIdx fun i c =>
        if spans.any fun s => style.hides (front ++ rest) s i then maskChar else c) ++
        style.maskLiterals rest := by
  refine List.ext_getElem? fun i => ?_
  rw [getElem?_maskLiterals, hliterals]
  by_cases hi : i < front.length
  · have hlater : ((style.literals rest).map (Span.shift front.length)).any
        (fun s => style.hides (front ++ rest) s i) = false := by
      simp [hides_shift_of_lt hi]
    rw [List.any_append, hlater, Bool.or_false, List.getElem?_append_left hi,
      List.getElem?_append_left (by simpa using hi), List.getElem?_mapIdx]
  · obtain ⟨k, rfl⟩ := Nat.exists_eq_add_of_le (Nat.le_of_not_lt hi)
    have hearlier : spans.any (fun s => style.hides (front ++ rest) s (front.length + k)) =
        false := by
      refine List.any_eq_false.mpr fun s hs => ?_
      rw [hides_of_stop_le (Nat.le_trans (hspans s hs) (Nat.le_add_right _ _))]
      exact Bool.false_ne_true
    have hshifted : ((style.literals rest).map (Span.shift front.length)).any
        (fun s => style.hides (front ++ rest) s (front.length + k)) =
        (style.literals rest).any fun s => style.hides rest s k := by
      rw [List.any_map]
      congr 1
      funext s
      exact hides_shift style front rest s k
    rw [List.any_append, hearlier, Bool.false_or, hshifted,
      List.getElem?_append_right (Nat.le_add_right _ _), List.getElem?_append_right (by simp),
      List.length_mapIdx, Nat.add_sub_cancel_left, getElem?_maskLiterals]

theorem maskLiterals_cons_of_plain (hcomment : style.commentStarts (c :: rest) = false)
    (hquote : c ∉ style.quotes) :
    style.maskLiterals (c :: rest) = c :: style.maskLiterals rest :=
  maskLiterals_append [c] [] (literals_cons_of_plain hcomment hquote)
    (List.forall_mem_nil _)

def literalMask (style : LiteralStyle) (literal : Text) (isLast : Bool) : Text :=
  literal.mapIdx fun i c =>
    if 0 < i && (i + 1 < literal.length ||
      (isLast && !style.isClosed literal ⟨0, literal.length⟩)) then maskChar else c

theorem IsLiteralBefore.maskLiterals_eq (h : style.IsLiteralBefore literal after) :
    style.maskLiterals (literal ++ after) =
      style.literalMask literal after.isEmpty ++ style.maskLiterals after := by
  rw [maskLiterals_append literal [⟨0, literal.length⟩] h.literals_eq
    (List.forall_mem_singleton.mpr (Nat.le_refl _))]
  congr 1
  refine List.ext_getElem (by simp [literalMask]) fun i hi _ => ?_
  have hlt : i < literal.length := by simpa using hi
  simp only [literalMask, List.getElem_mapIdx, List.any_cons, List.any_nil, Bool.or_false, hides]
  cases after with
  | nil => simp [hlt]
  | cons x after => simp

end Masks

end LiteralStyle

end LineLint
