import LineLint.Proofs.ClosingDelimiters
import LineLint.Proofs.ScannedText

/-!
# Tokenized lines

What the scan of a line has to be is told by the line alone, place by place: the literals follow each
other, each from a quote up to the first unescaped delimiter that goes with it, only the last one
may stay open, and neither a quote nor a comment mark is passed over. The scan is such a
tokenization, and there is no other.
-/

namespace LineLint

def LiteralScan.codeLength (scan : LiteralScan) (line : Text) : Nat :=
  scan.comment.getD line.length

namespace LiteralStyle

variable {style : LiteralStyle} {line t rest delimiter body : Text} {quote : Char} {n k : Nat}

section Openings

/-- A text that opens with a quote of the language: the delimiter of its literal, which is the quote
or, where the language has them and one stands there, the tripled quote, and what follows it. -/
structure Opens (style : LiteralStyle) (t delimiter body : Text) : Prop where
  eq_append : t = delimiter ++ body
  exists_quote : ∃ quote ∈ style.quotes, delimiter =
    if style.tripleQuotes = true ∧ [quote, quote, quote] <+: t then [quote, quote, quote]
    else [quote]

/-- The literal that opens the text takes up `n` characters: it ends with the first unescaped
occurrence of its delimiter. -/
def Closes (style : LiteralStyle) (t : Text) (n : Nat) : Prop :=
  ∃ delimiter body k, style.Opens t delimiter body ∧ ClosesFirstAt delimiter body k ∧
    n = delimiter.length + k + delimiter.length

def StaysOpen (style : LiteralStyle) (t : Text) : Prop :=
  ∃ delimiter body, style.Opens t delimiter body ∧ ∀ k, ¬ClosesAt delimiter body k

theorem Opens.ne_nil (h : style.Opens t delimiter body) : delimiter ≠ [] := by
  obtain ⟨quote, -, hdelimiter⟩ := h.exists_quote
  rw [hdelimiter]
  split_ifs
  all_goals exact List.cons_ne_nil _ _

theorem Opens.head (h : style.Opens t delimiter body) :
    ∃ quote ∈ style.quotes, t.head? = some quote ∧ delimiter =
      if style.tripleQuotes = true ∧ [quote, quote, quote] <+: t then [quote, quote, quote]
      else [quote] := by
  obtain ⟨quote, hquote, hdelimiter⟩ := h.exists_quote
  refine ⟨quote, hquote, ?_, hdelimiter⟩
  rw [h.eq_append, hdelimiter]
  split_ifs
  all_goals rfl

theorem Opens.unique {delimiter' body' : Text} (h : style.Opens t delimiter body)
    (h' : style.Opens t delimiter' body') : delimiter' = delimiter ∧ body' = body := by
  obtain ⟨quote, -, hhead, hdelimiter⟩ := h.head
  obtain ⟨quote', -, hhead', hdelimiter'⟩ := h'.head
  obtain rfl : quote = quote' := Option.some.inj (hhead.symm.trans hhead')
  obtain rfl : delimiter' = delimiter := hdelimiter'.trans hdelimiter.symm
  exact ⟨rfl, List.append_cancel_left (h'.eq_append.symm.trans h.eq_append)⟩

theorem Closes.eq (hn : style.Closes t n) (hk : style.Closes t k) : n = k := by
  obtain ⟨delimiter, body, i, hopens, hfirst, rfl⟩ := hn
  obtain ⟨delimiter', body', j, hopens', hfirst', rfl⟩ := hk
  obtain ⟨rfl, rfl⟩ := hopens.unique hopens'
  rw [hfirst.eq hfirst']

/-- Whether a quote is tripled is told by two characters and a quote behind them. -/
theorem tripled_prefix_congr {more more' : Text} (ht : 2 ≤ t.length)
    (hmore : more'.head? = some quote → more.head? = some quote)
    (h : [quote, quote, quote] <+: t ++ more') : [quote, quote, quote] <+: t ++ more := by
  obtain ⟨x, y, t, rfl⟩ : ∃ x y t', t = x :: y :: t' := by
    match t, ht with
    | x :: y :: t, _ => exact ⟨x, y, t, rfl⟩
  simp only [List.cons_append, List.cons_prefix_cons] at h ⊢
  obtain ⟨rfl, rfl, h⟩ := h
  refine ⟨rfl, rfl, ?_⟩
  cases t with
  | nil =>
      obtain ⟨rest, rfl⟩ := h
      obtain ⟨others, rfl⟩ := List.head?_eq_some_iff.mp (hmore rfl)
      exact List.prefix_append [quote] others
  | cons z t =>
      obtain ⟨rfl, -⟩ := List.cons_prefix_cons.mp h
      exact List.prefix_append [quote] (t ++ more)

/-- Where a literal closes is told by its own characters and by a quote right behind them. -/
theorem Closes.congr {more more' : Text} (h : style.Closes (t ++ more) n) (hn : n ≤ t.length)
    (hmore : ∀ quote ∈ style.quotes, more'.head? = some quote → more.head? = some quote) :
    style.Closes (t ++ more') n := by
  obtain ⟨delimiter, body, k, hopens, hfirst, rfl⟩ := h
  have hpositive := List.length_pos_of_ne_nil hopens.ne_nil
  obtain ⟨body', rfl⟩ : delimiter <+: t := by
    have hwhole : delimiter <+: t ++ more := hopens.eq_append ▸ List.prefix_append _ _
    exact List.prefix_of_prefix_length_le hwhole (List.prefix_append _ _) (by omega)
  obtain rfl : body = body' ++ more := by
    have hwhole := hopens.eq_append
    rw [List.append_assoc] at hwhole
    exact (List.append_cancel_left hwhole).symm
  have hlong : 2 ≤ (delimiter ++ body').length := by omega
  rw [List.length_append] at hn
  refine ⟨delimiter, body' ++ more', k, ⟨List.append_assoc .., ?_⟩, ⟨?_, fun m hm => ?_⟩, rfl⟩
  · obtain ⟨quote, hquote, hdelimiter⟩ := hopens.exists_quote
    refine ⟨quote, hquote, ?_⟩
    by_cases htriple :
        style.tripleQuotes = true ∧ [quote, quote, quote] <+: delimiter ++ body' ++ more
    · rw [if_pos htriple] at hdelimiter
      have hbegins : [quote, quote, quote] <+: delimiter ++ body' ++ more' := by
        rw [List.append_assoc, hdelimiter]
        exact List.prefix_append _ _
      rw [if_pos ⟨htriple.1, hbegins⟩, hdelimiter]
    · rw [if_neg htriple] at hdelimiter
      rw [if_neg, hdelimiter]
      rintro ⟨htripled, hbegins⟩
      exact htriple ⟨htripled, tripled_prefix_congr hlong (hmore quote hquote) hbegins⟩
  · exact hfirst.toClosesAt.append_congr hopens.ne_nil (by omega)
  · intro hearlier
    exact hfirst.first m hm (hearlier.append_congr hopens.ne_nil (by omega))

theorem StaysOpen.not_closes (h : style.StaysOpen t) : ¬style.Closes t n := by
  rintro ⟨delimiter', body', k, hopens', hfirst, -⟩
  obtain ⟨delimiter, body, hopens, hnever⟩ := h
  obtain ⟨rfl, rfl⟩ := hopens.unique hopens'
  exact hnever k hfirst.toClosesAt

theorem opens_delimiterAt (hquote : quote ∈ style.quotes) :
    style.Opens (quote :: rest) (style.delimiterAt quote (quote :: rest))
      (rest.drop ((style.delimiterAt quote (quote :: rest)).length - 1)) := by
  obtain ⟨opened, hdelimiter, hopened⟩ := style.delimiterAt_spec quote rest
  refine ⟨?_, quote, hquote, ?_⟩
  · obtain ⟨behind, rfl⟩ := hopened
    rw [hdelimiter, List.length_replicate, Nat.add_sub_cancel, List.replicate_succ,
      List.cons_append, List.drop_left' List.length_replicate]
  · simp only [delimiterAt, Bool.and_eq_true, List.isPrefixOf_iff_prefix]

theorem closes_of_closeLength? (hquote : quote ∈ style.quotes)
    (h : closeLength? (style.delimiterAt quote (quote :: rest))
      (rest.drop ((style.delimiterAt quote (quote :: rest)).length - 1)) = some n) :
    style.Closes (quote :: rest) ((style.delimiterAt quote (quote :: rest)).length + n) := by
  obtain ⟨k, rfl, hfirst⟩ := closesFirstAt_of_closeLength? h
  exact ⟨_, _, k, opens_delimiterAt hquote, hfirst, (Nat.add_assoc ..).symm⟩

theorem staysOpen_of_closeLength? (hquote : quote ∈ style.quotes)
    (h : closeLength? (style.delimiterAt quote (quote :: rest))
      (rest.drop ((style.delimiterAt quote (quote :: rest)).length - 1)) = none) :
    style.StaysOpen (quote :: rest) :=
  ⟨_, _, opens_delimiterAt hquote,
    not_closesAt_of_closeLength? (opens_delimiterAt hquote).ne_nil h⟩

theorem IsLiteralBefore.closes {literal after : Text} (h : style.IsLiteralBefore literal after) :
    style.Closes (literal ++ after) literal.length := by
  obtain ⟨-, quote, body, n, rfl, hquote, hlength, hcloses⟩ := h
  have hclosed := closes_of_closeLength? hquote hcloses
  have hopens : style.Opens (quote :: (body ++ after)) _ _ := opens_delimiterAt hquote
  have hpositive := List.length_pos_of_ne_nil hopens.ne_nil
  rw [List.cons_append] at hlength ⊢
  have hsame : (quote :: body).length =
      (style.delimiterAt quote (quote :: (body ++ after))).length + n := by
    rw [List.length_cons, hlength]
    omega
  rw [hsame]
  exact hclosed

theorem isLiteralBefore_of_closes {literal after : Text}
    (hcomment : style.commentStarts (literal ++ after) = false)
    (h : style.Closes (literal ++ after) literal.length) : style.IsLiteralBefore literal after := by
  obtain ⟨delimiter, body, k, hopens, hfirst, hlength⟩ := h
  have hpositive := List.length_pos_of_ne_nil hopens.ne_nil
  obtain ⟨quote, hquote, hhead, -⟩ := hopens.head
  obtain ⟨others, rfl⟩ : ∃ others, literal = quote :: others := by
    cases literal with
    | nil =>
        rw [List.length_nil] at hlength
        omega
    | cons c others => exact ⟨others, by rw [Option.some.inj hhead]⟩
  have hopens' : style.Opens (quote :: (others ++ after)) _ _ := opens_delimiterAt hquote
  obtain ⟨hdelimiter, hbody⟩ := hopens.unique hopens'
  rw [← List.cons_append] at hdelimiter hbody
  refine ⟨hcomment, quote, others, k + delimiter.length, rfl, hquote, ?_, ?_⟩
  · rw [hdelimiter]
    rw [List.length_cons] at hlength
    omega
  · rw [hdelimiter] at hbody ⊢
    rw [hbody, closeLength?_eq_some_iff hopens.ne_nil]
    exact ⟨k, rfl, hfirst⟩

theorem IsLiteralBefore.congr {literal after after' : Text}
    (h : style.IsLiteralBefore literal after) (hstyle : style.IsSolid)
    (hstarts : Text.StartsAs after' after) : style.IsLiteralBefore literal after' := by
  refine isLiteralBefore_of_closes
    (commentStarts_congr hstyle (hstarts.append_left literal) h.commentStarts_eq) ?_
  refine h.closes.congr (Nat.le_refl _) fun quote hquote hhead => ?_
  obtain ⟨rest, rfl⟩ := List.head?_eq_some_iff.mp hhead
  have hsolid : ∀ c ∈ [quote], isSpaceOrTab c = false :=
    List.forall_mem_singleton.mpr (hstyle.quotes quote hquote)
  obtain ⟨rest', rfl⟩ := hstarts [quote] hsolid (List.prefix_append [quote] rest)
  rfl

end Openings

section Tokens

/-- The literals of a line and its comment, place by place. -/
structure IsTokenized (style : LiteralStyle) (line : Text) (scan : LiteralScan) : Prop where
  ordered : scan.spans.Pairwise fun s t => s.stop ≤ t.start
  bounds : ∀ s ∈ scan.spans, s.start < s.stop ∧ s.stop ≤ scan.codeLength line
  /-- A literal ends with its delimiter, or else with the line, which then is nothing more. -/
  literals : ∀ s ∈ scan.spans,
    style.Closes (line.drop s.start) (s.stop - s.start) ∨
      style.StaysOpen (line.drop s.start) ∧ s.stop = line.length ∧
        scan.spans.getLast? = some s ∧ scan.comment = none
  comment : ∀ c ∈ scan.comment, c < line.length ∧ style.commentStarts (line.drop c) = true
  /-- No comment starts before it outside the literals, nor together with one of them. -/
  noComment : ∀ i < scan.codeLength line, (∀ s ∈ scan.spans, ¬(s.start < i ∧ i < s.stop)) →
    style.commentStarts (line.drop i) = false
  noQuote : ∀ i < scan.codeLength line, (∀ s ∈ scan.spans, ¬(s.start ≤ i ∧ i < s.stop)) →
    ∀ c ∈ (line)[i]?, c ∉ style.quotes

variable {scan a b : LiteralScan} {s : Span}

theorem IsTokenized.codeLength_le (h : style.IsTokenized line scan) :
    scan.codeLength line ≤ line.length := by
  rw [LiteralScan.codeLength]
  cases hcomment : scan.comment with
  | none => exact Nat.le_refl _
  | some c => exact Nat.le_of_lt (h.comment c hcomment).1

theorem IsTokenized.comment_eq (h : style.IsTokenized line scan) :
    scan.comment =
      if scan.codeLength line < line.length then some (scan.codeLength line) else none := by
  rw [LiteralScan.codeLength]
  cases hcomment : scan.comment with
  | none => rw [Option.getD_none, if_neg (Nat.lt_irrefl _)]
  | some c => rw [Option.getD_some, if_pos (h.comment c hcomment).1]

theorem IsTokenized.commentStarts_eq (h : style.IsTokenized line scan)
    (hlt : scan.codeLength line < line.length) :
    style.commentStarts (line.drop (scan.codeLength line)) = true := by
  have hcomment := h.comment_eq
  rw [if_pos hlt] at hcomment
  exact (h.comment _ hcomment).2

theorem IsTokenized.quote_at_start (h : style.IsTokenized line scan) (hs : s ∈ scan.spans) :
    ∃ quote ∈ style.quotes, (line)[s.start]? = some quote := by
  obtain ⟨delimiter, body, hopens⟩ :
      ∃ delimiter body, style.Opens (line.drop s.start) delimiter body := by
    rcases h.literals s hs with ⟨delimiter, body, -, hopens, -⟩ | ⟨⟨delimiter, body, hopens, -⟩, -⟩
    · exact ⟨delimiter, body, hopens⟩
    · exact ⟨delimiter, body, hopens⟩
  obtain ⟨quote, hquote, hhead, -⟩ := hopens.head
  exact ⟨quote, hquote, by rw [← hhead, List.head?_drop]⟩

theorem IsTokenized.apart {u : Span} (h : style.IsTokenized line scan) (hs : s ∈ scan.spans)
    (hu : u ∈ scan.spans) : s = u ∨ s.stop ≤ u.start ∨ u.stop ≤ s.start := by
  have hordered := List.pairwise_iff_getElem.mp h.ordered
  obtain ⟨j, hj, rfl⟩ := List.getElem_of_mem hs
  obtain ⟨k, hk, rfl⟩ := List.getElem_of_mem hu
  rcases Nat.lt_trichotomy j k with hlt | rfl | hlt
  · exact Or.inr (Or.inl (hordered j k hj hk hlt))
  · exact Or.inl rfl
  · exact Or.inr (Or.inr (hordered k j hk hj hlt))

end Tokens

section Uniqueness

variable {scan a b : LiteralScan} {s u : Span} {done as bs : List Span}

/-- Where one tokenization has a further literal, another one has one too, and no later. -/
theorem IsTokenized.exists_next (ha : style.IsTokenized line a) (hb : style.IsTokenized line b)
    (has : a.spans = done ++ as) (hbs : b.spans = done ++ u :: bs) :
    ∃ s rest, as = s :: rest ∧ s.start ≤ u.start := by
  by_contra hnone
  have hu : u ∈ b.spans := by rw [hbs]; simp
  have hordered := hb.ordered
  rw [hbs] at hordered
  have hdone : ∀ s ∈ done, s.stop ≤ u.start := fun s hs =>
    (List.pairwise_append.mp hordered).2.2 s hs u List.mem_cons_self
  have hlater : ∀ s ∈ as, u.start < s.start := by
    intro s hs
    cases as with
    | nil => cases hs
    | cons first rest =>
        have hfirst : u.start < first.start := by
          by_contra hle
          exact hnone ⟨first, rest, rfl, Nat.le_of_not_lt hle⟩
        have hsorted := ha.ordered
        rw [has] at hsorted
        have hfollow := (List.pairwise_cons.mp (List.pairwise_append.mp hsorted).2.1).1
        rcases List.mem_cons.mp hs with rfl | hs
        · exact hfirst
        · have hbound := (ha.bounds first (by rw [has]; simp)).1
          have hstart := hfollow s hs
          omega
  -- the first tokenization passes over the quote, or its comment starts before it
  by_cases hcode : u.start < a.codeLength line
  · obtain ⟨quote, hquote, hat⟩ := hb.quote_at_start hu
    refine ha.noQuote u.start hcode (fun s hs hholds => ?_) quote hat hquote
    rw [has] at hs
    rcases List.mem_append.mp hs with hs | hs
    · have hstop := hdone s hs
      omega
    · have hstart := hlater s hs
      omega
  · have hbound := hb.bounds u hu
    have hle := hb.codeLength_le
    have hstarts := ha.commentStarts_eq (by omega)
    rw [hb.noComment _ (by omega) fun s hs hholds => ?_] at hstarts
    · cases hstarts
    · rw [hbs] at hs
      rcases List.mem_append.mp hs with hs | hs
      · have hstop := (ha.bounds s (by rw [has]; exact List.mem_append_left _ hs)).2
        omega
      · rcases List.mem_cons.mp hs with rfl | hs
        · omega
        · have hfollow := (List.pairwise_cons.mp (List.pairwise_append.mp hordered).2.1).1 s hs
          omega

theorem IsTokenized.stop_eq (ha : style.IsTokenized line a) (hb : style.IsTokenized line b)
    (hs : s ∈ a.spans) (hu : u ∈ b.spans) (hstart : s.start = u.start) : s.stop = u.stop := by
  have hbound := (ha.bounds s hs).1
  have hbound' := (hb.bounds u hu).1
  have hcloses := ha.literals s hs
  rw [hstart] at hcloses
  rcases hcloses with hcloses | ⟨hopen, hstop, -⟩
  · rcases hb.literals u hu with hcloses' | ⟨hopen', -⟩
    · have hlength := hcloses.eq hcloses'
      omega
    · exact absurd hcloses hopen'.not_closes
  · rcases hb.literals u hu with hcloses' | ⟨-, hstop', -⟩
    · exact absurd hcloses' hopen.not_closes
    · rw [hstop, hstop']

theorem IsTokenized.rest_eq (ha : style.IsTokenized line a) (hb : style.IsTokenized line b)
    (has : a.spans = done ++ as) (hbs : b.spans = done ++ bs) : as = bs := by
  induction as generalizing done bs with
  | nil =>
      cases bs with
      | nil => rfl
      | cons u bs =>
          obtain ⟨s, rest, hnil, -⟩ := ha.exists_next hb has hbs
          cases hnil
  | cons s as ih =>
      obtain ⟨u, bs, rfl, hle⟩ := hb.exists_next ha hbs has
      obtain ⟨s', rest, hcons, hle'⟩ := ha.exists_next hb has hbs
      obtain ⟨rfl, -⟩ := List.cons.inj hcons
      have hstart : s.start = u.start := Nat.le_antisymm hle' hle
      have hstop := ha.stop_eq hb (by rw [has]; simp) (by rw [hbs]; simp) hstart
      obtain rfl : s = u := by
        cases s
        cases u
        simp only [Span.mk.injEq]
        exact ⟨hstart, hstop⟩
      rw [List.append_cons] at has hbs
      rw [ih has hbs]

theorem IsTokenized.codeLength_le_codeLength (ha : style.IsTokenized line a)
    (hb : style.IsTokenized line b) (hspans : a.spans = b.spans) :
    b.codeLength line ≤ a.codeLength line := by
  by_contra hlt
  have hle := hb.codeLength_le
  have hstarts := ha.commentStarts_eq (by omega)
  rw [hb.noComment _ (by omega) fun s hs hholds => ?_] at hstarts
  · cases hstarts
  · have hstop := (ha.bounds s (hspans ▸ hs)).2
    omega

theorem IsTokenized.unique (ha : style.IsTokenized line a) (hb : style.IsTokenized line b) :
    a = b := by
  have hspans : a.spans = b.spans := ha.rest_eq hb (List.nil_append _).symm (List.nil_append _).symm
  have hcode : a.codeLength line = b.codeLength line :=
    Nat.le_antisymm (hb.codeLength_le_codeLength ha hspans.symm)
      (ha.codeLength_le_codeLength hb hspans)
  have hcomment : a.comment = b.comment := by rw [ha.comment_eq, hb.comment_eq, hcode]
  cases a
  cases b
  exact congr (congrArg LiteralScan.mk hspans) hcomment

end Uniqueness

section Existence

variable {scan : LiteralScan} {front : Text} {spans : List Span} {c : Char}

theorem isTokenized_nil : style.IsTokenized [] ⟨[], none⟩ where
  ordered := List.Pairwise.nil
  bounds := List.forall_mem_nil _
  literals := List.forall_mem_nil _
  comment _ hc := by cases hc
  noComment i hi := absurd hi (Nat.not_lt_zero i)
  noQuote i hi := absurd hi (Nat.not_lt_zero i)

theorem isTokenized_of_commentStarts (h : style.commentStarts (c :: rest) = true) :
    style.IsTokenized (c :: rest) ⟨[], some 0⟩ where
  ordered := List.Pairwise.nil
  bounds := List.forall_mem_nil _
  literals := List.forall_mem_nil _
  comment i hi := by
    obtain rfl := Option.some.inj hi
    exact ⟨Nat.succ_pos _, h⟩
  noComment i hi := absurd hi (Nat.not_lt_zero i)
  noQuote i hi := absurd hi (Nat.not_lt_zero i)

theorem isTokenized_of_staysOpen (hcomment : style.commentStarts t = false)
    (hopen : style.StaysOpen t) : style.IsTokenized t ⟨[⟨0, t.length⟩], none⟩ where
  ordered := List.pairwise_singleton _ _
  bounds := by
    obtain ⟨delimiter, body, hopens, -⟩ := hopen
    refine List.forall_mem_singleton.mpr ⟨?_, Nat.le_refl _⟩
    change 0 < t.length
    rw [hopens.eq_append]
    exact List.length_pos_of_ne_nil (List.append_ne_nil_of_left_ne_nil hopens.ne_nil body)
  literals := List.forall_mem_singleton.mpr (Or.inr ⟨hopen, rfl, rfl, rfl⟩)
  comment _ hc := by cases hc
  noComment i hi houtside := by
    have hnot := houtside _ (List.mem_singleton_self _)
    have hi : i < t.length := hi
    obtain rfl : i = 0 := by
      simp only at hnot
      omega
    exact hcomment
  noQuote i hi houtside :=
    absurd ⟨Nat.zero_le i, hi⟩ (houtside _ (List.mem_singleton_self _))

structure IsTokenizedPart (style : LiteralStyle) (front rest : Text) (spans : List Span) : Prop where
  ordered : spans.Pairwise fun s t => s.stop ≤ t.start
  bounds : ∀ s ∈ spans, s.start < s.stop ∧ s.stop ≤ front.length
  closes : ∀ s ∈ spans, style.Closes ((front ++ rest).drop s.start) (s.stop - s.start)
  noComment : ∀ i < front.length, (∀ s ∈ spans, ¬(s.start < i ∧ i < s.stop)) →
    style.commentStarts ((front ++ rest).drop i) = false
  noQuote : ∀ i < front.length, (∀ s ∈ spans, ¬(s.start ≤ i ∧ i < s.stop)) →
    ∀ c ∈ front[i]?, c ∉ style.quotes

theorem codeLength_shift (front rest : Text) (spans : List Span) (scan : LiteralScan) :
    LiteralScan.codeLength ⟨spans, (scan.shift front.length).comment⟩ (front ++ rest) =
      front.length + scan.codeLength rest := by
  rw [LiteralScan.codeLength, LiteralScan.codeLength, LiteralScan.shift]
  cases scan.comment <;> simp

/-- What follows a first part is tokenized as if it stood alone. -/
theorem IsTokenizedPart.append (hfront : style.IsTokenizedPart front rest spans)
    (h : style.IsTokenized rest scan) :
    style.IsTokenized (front ++ rest) ⟨spans ++ (scan.shift front.length).spans,
      (scan.shift front.length).comment⟩ where
  ordered := by
    refine List.pairwise_append.mpr ⟨hfront.ordered, ?_, fun s hs u hu => ?_⟩
    · exact List.pairwise_map.mpr (h.ordered.imp fun hle => Nat.add_le_add_left hle _)
    · obtain ⟨u, -, rfl⟩ := List.mem_map.mp hu
      exact Nat.le_trans (hfront.bounds s hs).2 (Nat.le_add_right _ _)
  bounds s hs := by
    rw [codeLength_shift]
    rcases List.mem_append.mp hs with hs | hs
    · have hbound := hfront.bounds s hs
      omega
    · obtain ⟨u, hu, rfl⟩ := List.mem_map.mp hs
      have hbound := h.bounds u hu
      simp only [Span.shift]
      omega
  literals s hs := by
    rcases List.mem_append.mp hs with hs | hs
    · exact Or.inl (hfront.closes s hs)
    · obtain ⟨u, hu, rfl⟩ := List.mem_map.mp hs
      have hlength : (u.shift front.length).stop - (u.shift front.length).start =
          u.stop - u.start := Nat.add_sub_add_left ..
      have hdrop : (front ++ rest).drop (u.shift front.length).start = rest.drop u.start :=
        List.drop_length_add_append ..
      rw [hlength, hdrop]
      refine (h.literals u hu).imp_right ?_
      rintro ⟨hopen, hstop, hlast, hcomment⟩
      refine ⟨hopen, ?_, ?_, ?_⟩
      · rw [List.length_append, ← hstop]
        rfl
      · rw [List.getLast?_append, LiteralScan.shift, List.getLast?_map, hlast]
        rfl
      · rw [LiteralScan.shift, hcomment]
        rfl
  comment i hi := by
    obtain ⟨c, hc, rfl⟩ := Option.map_eq_some_iff.mp hi
    obtain ⟨hlt, hstarts⟩ := h.comment c hc
    refine ⟨by rw [List.length_append]; omega, ?_⟩
    rwa [List.drop_length_add_append]
  noComment i hi houtside := by
    rw [codeLength_shift] at hi
    by_cases hlt : i < front.length
    · exact hfront.noComment i hlt fun s hs => houtside s (List.mem_append_left _ hs)
    · obtain ⟨i, rfl⟩ := Nat.exists_eq_add_of_le (Nat.le_of_not_lt hlt)
      rw [List.drop_length_add_append]
      refine h.noComment i (by omega) fun u hu hholds => ?_
      refine houtside _ (List.mem_append_right _ (List.mem_map_of_mem hu)) ?_
      simp only [Span.shift]
      omega
  noQuote i hi houtside := by
    rw [codeLength_shift] at hi
    by_cases hlt : i < front.length
    · rw [List.getElem?_append_left hlt]
      exact hfront.noQuote i hlt fun s hs => houtside s (List.mem_append_left _ hs)
    · obtain ⟨i, rfl⟩ := Nat.exists_eq_add_of_le (Nat.le_of_not_lt hlt)
      rw [List.getElem?_append_right (Nat.le_add_right _ _), Nat.add_sub_cancel_left]
      refine h.noQuote i (by omega) fun u hu hholds => ?_
      refine houtside _ (List.mem_append_right _ (List.mem_map_of_mem hu)) ?_
      simp only [Span.shift]
      omega

theorem isTokenizedPart_singleton (hcomment : style.commentStarts (c :: rest) = false)
    (hquote : c ∉ style.quotes) : style.IsTokenizedPart [c] rest [] where
  ordered := List.Pairwise.nil
  bounds := List.forall_mem_nil _
  closes := List.forall_mem_nil _
  noComment i hi _ := by
    obtain rfl : i = 0 := Nat.lt_one_iff.mp hi
    exact hcomment
  noQuote i hi _ d hd := by
    obtain rfl : i = 0 := Nat.lt_one_iff.mp hi
    obtain rfl := Option.some.inj hd
    exact hquote

theorem IsLiteralBefore.isTokenizedPart {literal after : Text}
    (h : style.IsLiteralBefore literal after) :
    style.IsTokenizedPart literal after [⟨0, literal.length⟩] where
  ordered := List.pairwise_singleton _ _
  bounds := List.forall_mem_singleton.mpr ⟨List.length_pos_of_ne_nil h.ne_nil, Nat.le_refl _⟩
  closes := List.forall_mem_singleton.mpr h.closes
  noComment i hi houtside := by
    have hnot := houtside _ (List.mem_singleton_self _)
    obtain rfl : i = 0 := by
      simp only at hnot
      omega
    exact h.commentStarts_eq
  noQuote i hi houtside :=
    absurd ⟨Nat.zero_le i, hi⟩ (houtside _ (List.mem_singleton_self _))

theorem isTokenized_scan (style : LiteralStyle) (line : Text) :
    style.IsTokenized line (style.scan line) := by
  -- a literal takes up many characters at once
  induction hn : line.length using Nat.strongRecOn generalizing line with
  | ind n ih =>
      cases line with
      | nil =>
          rw [scan, scanFrom]
          exact isTokenized_nil
      | cons c rest =>
          by_cases hcomment : style.commentStarts (c :: rest) = true
          · rw [scan, scanFrom, if_pos hcomment]
            exact isTokenized_of_commentStarts hcomment
          rw [Bool.not_eq_true] at hcomment
          by_cases hquote : c ∈ style.quotes
          · cases hclose : closeLength? (style.delimiterAt c (c :: rest))
                (rest.drop ((style.delimiterAt c (c :: rest)).length - 1)) with
            | none =>
                rw [scan, scanFrom_cons_of_open hcomment hquote hclose, Nat.zero_add]
                exact isTokenized_of_staysOpen hcomment (staysOpen_of_closeLength? hquote hclose)
            | some k =>
                obtain ⟨body, after, rfl, hliteral⟩ :=
                  exists_isLiteralBefore hcomment hquote hclose
                have hrest := ih after.length (by rw [← hn]; simp +arith) after rfl
                rw [← List.cons_append, hliteral.scan_eq]
                exact hliteral.isTokenizedPart.append hrest
          · have hrest := ih rest.length (by rw [← hn]; exact Nat.lt_succ_self _) rest rfl
            have hwhole := (isTokenizedPart_singleton hcomment hquote).append hrest
            rw [List.nil_append] at hwhole
            rw [← List.singleton_append, scan_cons_of_plain hcomment hquote]
            exact hwhole

end Existence

theorem splitComment_eq (style : LiteralStyle) (line : Text) :
    style.splitComment line =
      (line.take ((style.scan line).codeLength line),
        line.drop ((style.scan line).codeLength line)) := by
  unfold splitComment LiteralScan.codeLength
  cases (style.scan line).comment with
  | none => simp
  | some position => rfl

/-- The scan of a line, and nothing else, tokenizes it. -/
theorem isTokenized_iff_eq_scan (style : LiteralStyle) (line : Text) (scan : LiteralScan) :
    style.IsTokenized line scan ↔ scan = style.scan line := by
  constructor
  · exact fun h => h.unique (isTokenized_scan style line)
  · rintro rfl
    exact isTokenized_scan style line

end LiteralStyle

end LineLint
