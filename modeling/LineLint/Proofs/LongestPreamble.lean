import LineLint.Preamble
import LineLint.Proofs.TextSplit
import Mathlib.Data.List.Infix
import Mathlib.Data.List.TakeWhile
import Mathlib.Order.Bounds.Basic

/-!
# The longest preamble

The lines before the code are blank, comments, or one documentation block, which ends on the first
line that holds its quote a second time. What is counted is the longest preamble of the text unless
the block ends on its first line with something behind the quote. Such a block is counted up to the
next line that holds the quote, whatever code comes before that line or stands on it. A line that
starts with the mark of comments and with a quote opens no block for the count, though it might.
-/

namespace LineLint

namespace Preamble

def IsSkipped (comment line : Text) : Prop := line.trim = [] ∨ comment <+: line.trim

instance (comment : Text) : DecidablePred (IsSkipped comment) := fun _ =>
  inferInstanceAs (Decidable (_ ∨ _))

/-- How many of some texts there are up to the first one that holds the quote, or in all. -/
def blockLength (quote : Text) (texts : List Text) : Nat :=
  min ((texts.takeWhile fun t => ¬quote <:+: t).length + 1) texts.length

/-- The first `n` lines are blank, comments, or a documentation block. The lines that may open a
block are given; there is one block at most, and none if one has been `seen` before. -/
inductive IsPreamble (comment : Text) (mayOpen : Text → Prop) : Bool → List Text → Nat → Prop
  | nil (seen : Bool) (lines : List Text) : IsPreamble comment mayOpen seen lines 0
  | skip {seen : Bool} {line : Text} {rest : List Text} {n : Nat} (hline : IsSkipped comment line)
      (hrest : IsPreamble comment mayOpen seen rest n) :
      IsPreamble comment mayOpen seen (line :: rest) (n + 1)
  | block {quote line first : Text} {rest : List Text} {n : Nat} (hquote : quote ∈ tripleQuotes)
      (hline : line.trim = quote ++ first) (hopens : mayOpen line)
      (hrest : IsPreamble comment mayOpen true
        ((line :: rest).drop (blockLength quote (first :: rest))) n) :
      IsPreamble comment mayOpen false (line :: rest) (blockLength quote (first :: rest) + n)

variable {comment quote line first : Text} {mayOpen : Text → Prop} {lines front rest : List Text}
  {seen : Bool} {n : Nat}

section Lengths

def skipLength (comment : Text) (lines : List Text) : Nat :=
  (lines.takeWhile (IsSkipped comment)).length

theorem blockLength_cons_of_infix (h : quote <:+: first) :
    blockLength quote (first :: rest) = 1 := by
  rw [blockLength, List.takeWhile_cons_of_neg (by simpa using h), List.length_nil, List.length_cons]
  exact Nat.min_eq_left (Nat.succ_le_succ (Nat.zero_le _))

theorem blockLength_cons_of_not_infix (h : ¬quote <:+: first) :
    blockLength quote (first :: rest) = blockLength quote rest + 1 := by
  rw [blockLength, List.takeWhile_cons_of_pos (by simpa using h), List.length_cons,
    List.length_cons, Nat.add_min_add_right]
  rfl

theorem docBlockLength_eq (quote : Text) (lines : List Text) :
    docBlockLength quote lines = blockLength quote lines := by
  induction lines with
  | nil => simp [docBlockLength, blockLength]
  | cons line rest ih =>
      rw [docBlockLength]
      by_cases h : quote <:+: line
      · rw [if_pos (Text.includes_iff.mpr h), blockLength_cons_of_infix h]
      · rw [if_neg (mt Text.includes_iff.mp h), blockLength_cons_of_not_infix h, ih]

theorem blockLength_le (quote : Text) (lines : List Text) :
    blockLength quote lines ≤ lines.length :=
  Nat.min_le_right _ _

theorem skipLength_cons_of_isSkipped (h : IsSkipped comment line) :
    skipLength comment (line :: rest) = skipLength comment rest + 1 := by
  rw [skipLength, List.takeWhile_cons, if_pos (decide_eq_true h), List.length_cons, skipLength]

theorem skipLength_cons_of_not_isSkipped (h : ¬IsSkipped comment line) :
    skipLength comment (line :: rest) = 0 := by
  rw [skipLength, List.takeWhile_cons, if_neg (by simpa using h), List.length_nil]

theorem isSkipped_of_mem_takeWhile (h : line ∈ lines.takeWhile (IsSkipped comment)) :
    IsSkipped comment line :=
  of_decide_eq_true (List.mem_takeWhile_imp (p := fun l => decide (IsSkipped comment l)) h)

theorem skipLength_append (hfront : ∀ l ∈ front, IsSkipped comment l) (lines : List Text) :
    skipLength comment (front ++ lines) = front.length + skipLength comment lines := by
  rw [skipLength, List.takeWhile_append_of_pos fun l hl => decide_eq_true (hfront l hl),
    List.length_append]
  rfl

theorem skipLength_le_drop (comment : Text) (lines : List Text) (k : Nat) :
    skipLength comment lines ≤ k + skipLength comment (lines.drop k) := by
  induction k generalizing lines with
  | zero => rw [List.drop_zero, Nat.zero_add]
  | succ k ih =>
      cases lines with
      | nil => exact Nat.zero_le _
      | cons line rest =>
          have hrest := ih rest
          rw [List.drop_succ_cons]
          by_cases h : IsSkipped comment line
          · rw [skipLength_cons_of_isSkipped h]
            omega
          · rw [skipLength_cons_of_not_isSkipped h]
            exact Nat.zero_le _

/-- The skipped lines reach as far with the first `k` lines as without them only if these are
skipped, too. -/
theorem le_skipLength_iff {k : Nat} (hk : k ≤ lines.length) :
    k + skipLength comment (lines.drop k) ≤ skipLength comment lines ↔
      ∀ l ∈ lines.take k, IsSkipped comment l := by
  constructor
  · intro h l hl
    have htake : lines.take k <+: lines.takeWhile (IsSkipped comment) := by
      refine List.prefix_of_prefix_length_le (List.take_prefix _ _) (List.takeWhile_prefix _) ?_
      rw [List.length_take_of_le hk]
      exact Nat.le_trans (Nat.le_add_right _ _) h
    exact isSkipped_of_mem_takeWhile (htake.subset hl)
  · intro h
    have hwhole := skipLength_append h (lines.drop k)
    rw [List.take_append_drop, List.length_take_of_le hk] at hwhole
    exact Nat.le_of_eq hwhole.symm

end Lengths

section Counted

theorem isSkipped_iff :
    (line.trim.isEmpty || comment.isPrefixOf line.trim) = true ↔ IsSkipped comment line := by
  rw [Bool.or_eq_true, List.isEmpty_iff, List.isPrefixOf_iff_prefix]
  rfl

theorem preambleFrom_cons_of_isSkipped (h : IsSkipped comment line) :
    preambleFrom comment seen (line :: rest) = preambleFrom comment seen rest + 1 := by
  rw [preambleFrom]
  exact if_pos (isSkipped_iff.mpr h)

theorem preambleFrom_append (hfront : ∀ l ∈ front, IsSkipped comment l) (lines : List Text) :
    preambleFrom comment seen (front ++ lines) =
      front.length + preambleFrom comment seen lines := by
  induction front with
  | nil => rw [List.nil_append, List.length_nil, Nat.zero_add]
  | cons line front ih =>
      obtain ⟨hline, hfront⟩ := List.forall_mem_cons.mp hfront
      rw [List.cons_append, preambleFrom_cons_of_isSkipped hline, ih hfront, List.length_cons]
      omega

theorem preambleFrom_of_not_opens (hline : ¬IsSkipped comment line)
    (hopens : seen = true ∨ line.trim.take 3 ∉ tripleQuotes) :
    preambleFrom comment seen (line :: rest) = 0 := by
  have hnone : (seen || !tripleQuotes.contains (line.trim.take 3)) = true := by
    simpa using hopens
  rw [preambleFrom]
  exact (if_neg (mt isSkipped_iff.mp hline)).trans (if_pos hnone)

theorem preambleFrom_true (comment : Text) (lines : List Text) :
    preambleFrom comment true lines = skipLength comment lines := by
  induction lines with
  | nil => rw [preambleFrom]; rfl
  | cons line rest ih =>
      by_cases hline : IsSkipped comment line
      · rw [preambleFrom_cons_of_isSkipped hline, skipLength_cons_of_isSkipped hline, ih]
      · rw [preambleFrom_of_not_opens hline (Or.inl rfl), skipLength_cons_of_not_isSkipped hline]

theorem preambleFrom_of_opens (hline : ¬IsSkipped comment line) (hquote : quote ∈ tripleQuotes)
    (htrim : line.trim = quote ++ first) :
    preambleFrom comment false (line :: rest) =
      if quote <:+ first then 1 + skipLength comment rest
      else blockLength quote rest + 1 + skipLength comment (rest.drop (blockLength quote rest)) := by
  have hthree : quote.length = 3 := by
    have hall : ∀ q ∈ tripleQuotes, q.length = 3 := by decide
    exact hall quote hquote
  have htake : (quote ++ first).take 3 = quote := by rw [← hthree, List.take_left]
  have hopens : (false || !tripleQuotes.contains quote) = false := by
    simpa using hquote
  have hcloses : closesOnSameLine quote (quote ++ first) = true ↔ quote <:+ first := by
    rw [closesOnSameLine, Bool.and_eq_true, decide_eq_true_eq, List.isSuffixOf_iff_suffix,
      List.length_append, hthree]
    constructor
    · rintro ⟨hlength, hsuffix⟩
      exact List.suffix_of_suffix_length_le hsuffix (List.suffix_append _ _) (by omega)
    · intro hsuffix
      have hlength := hsuffix.length_le
      exact ⟨by omega, hsuffix.trans (List.suffix_append _ _)⟩
  rw [preambleFrom]
  refine (if_neg (mt isSkipped_iff.mp hline)).trans ?_
  simp only [htrim, htake, hopens, Bool.false_eq_true, if_false]
  by_cases hsuffix : quote <:+ first
  · rw [if_pos (hcloses.mpr hsuffix), if_pos hsuffix, preambleFrom_true, Nat.add_comm]
  · rw [if_neg (mt hcloses.mp hsuffix), if_neg hsuffix, preambleFrom_true, docBlockLength_eq]
    omega

end Counted

section Preambles

theorem isPreamble_of_le_skipLength (h : n ≤ skipLength comment lines) :
    IsPreamble comment mayOpen seen lines n := by
  induction lines generalizing n with
  | nil => exact Nat.le_zero.mp h ▸ .nil _ _
  | cons line rest ih =>
      cases n with
      | zero => exact .nil _ _
      | succ n =>
          by_cases hline : IsSkipped comment line
          · rw [skipLength_cons_of_isSkipped hline] at h
            exact .skip hline (ih (Nat.le_of_succ_le_succ h))
          · rw [skipLength_cons_of_not_isSkipped hline] at h
            exact absurd h (Nat.not_succ_le_zero n)

theorem isPreamble_true_iff :
    IsPreamble comment mayOpen true lines n ↔ n ≤ skipLength comment lines := by
  refine ⟨fun h => ?_, isPreamble_of_le_skipLength⟩
  generalize hseen : true = seen at h
  induction h with
  | nil => exact Nat.zero_le _
  | skip hline _ ih =>
      rw [skipLength_cons_of_isSkipped hline]
      exact Nat.succ_le_succ (ih hseen)
  | block => cases hseen

theorem IsPreamble.append (hfront : ∀ l ∈ front, IsSkipped comment l)
    (h : IsPreamble comment mayOpen seen lines n) :
    IsPreamble comment mayOpen seen (front ++ lines) (front.length + n) := by
  induction front with
  | nil => rwa [List.nil_append, List.length_nil, Nat.zero_add]
  | cons line front ih =>
      obtain ⟨hline, hfront⟩ := List.forall_mem_cons.mp hfront
      rw [List.cons_append, List.length_cons, Nat.succ_add]
      exact .skip hline (ih hfront)

theorem IsPreamble.imp {mayOpen' : Text → Prop}
    (himp : ∀ {quote line first}, quote ∈ tripleQuotes → line.trim = quote ++ first →
      mayOpen line → mayOpen' line)
    (h : IsPreamble comment mayOpen seen lines n) : IsPreamble comment mayOpen' seen lines n := by
  induction h with
  | nil seen lines => exact .nil seen lines
  | skip hline _ ih => exact .skip hline ih
  | block hquote hline hopens _ ih => exact .block hquote hline (himp hquote hline hopens) ih

theorem isPreamble_iff_or :
    IsPreamble comment (fun _ => True) seen lines n ↔
      IsPreamble comment (¬IsSkipped comment ·) seen lines n ∨
        IsPreamble comment (IsSkipped comment) seen lines n := by
  constructor
  · intro h
    induction h with
    | nil seen lines => exact Or.inl (.nil seen lines)
    | skip hline _ ih => exact ih.imp (.skip hline) (.skip hline)
    | @block quote line first rest n hquote htrim _ hrest _ =>
        have hrest := isPreamble_true_iff.mp hrest
        by_cases hline : IsSkipped comment line
        · exact Or.inr (.block hquote htrim hline (isPreamble_true_iff.mpr hrest))
        · exact Or.inl (.block hquote htrim hline (isPreamble_true_iff.mpr hrest))
  · rintro (h | h)
    · exact h.imp fun _ _ _ => trivial
    · exact h.imp fun _ _ _ => trivial

end Preambles

section Blocks

/-- Lines with a documentation block, which starts behind lines that are blank or comments. -/
structure Block (comment : Text) where
  front : List Text
  line : Text
  rest : List Text
  quote : Text
  /-- What stands behind the quote on the line that opens the block. -/
  first : Text
  front_skipped : ∀ l ∈ front, IsSkipped comment l
  quote_mem : quote ∈ tripleQuotes
  line_eq : line.trim = quote ++ first

namespace Block

variable (b : Block comment)

def whole : List Text := b.front ++ b.line :: b.rest

def length : Nat := blockLength b.quote (b.first :: b.rest)

/-- Where the code starts behind the first `k` lines from the one that opens the block. -/
def reach (k : Nat) : Nat :=
  b.front.length + (k + skipLength comment ((b.line :: b.rest).drop k))

theorem reach_zero : b.reach 0 = skipLength comment b.whole := by
  rw [reach, whole, skipLength_append b.front_skipped, Nat.zero_add, List.drop_zero]

theorem length_le : b.length ≤ (b.line :: b.rest).length :=
  blockLength_le _ _

theorem reach_le_reach {j k : Nat} (h : j ≤ k) : b.reach j ≤ b.reach k := by
  have hmore := skipLength_le_drop comment ((b.line :: b.rest).drop j) (k - j)
  rw [List.drop_drop, Nat.add_sub_cancel' h] at hmore
  rw [reach, reach]
  omega

/-- The code starts at the same place if the lines in between are skipped anyway. -/
theorem reach_le_reach_iff {j k : Nat} (h : j ≤ k) (hk : k ≤ (b.line :: b.rest).length) :
    b.reach k ≤ b.reach j ↔
      ∀ l ∈ ((b.line :: b.rest).drop j).take (k - j), IsSkipped comment l := by
  rw [← le_skipLength_iff (by rw [List.length_drop]; omega), List.drop_drop,
    Nat.add_sub_cancel' h, reach, reach]
  omega

/-- A preamble with a block in it ends behind that block, at the latest where the code starts. -/
theorem exists_of_isPreamble (h : IsPreamble comment mayOpen false lines n) :
    n ≤ skipLength comment lines ∨ ∃ b : Block comment, b.whole = lines ∧ mayOpen b.line ∧
      b.front.length + b.length ≤ n ∧ n ≤ b.reach b.length := by
  generalize hseen : false = seen at h
  induction h with
  | nil => exact Or.inl (Nat.zero_le _)
  | @skip seen line rest n hline _ ih =>
      rcases ih hseen with hle | ⟨b, rfl, hopens, hlength, hreach⟩
      · rw [skipLength_cons_of_isSkipped hline]
        exact Or.inl (Nat.succ_le_succ hle)
      · refine Or.inr ⟨{ b with
          front := line :: b.front
          front_skipped := List.forall_mem_cons.mpr ⟨hline, b.front_skipped⟩ }, rfl, hopens, ?_, ?_⟩
        · change b.front.length + 1 + b.length ≤ n + 1
          omega
        · change n + 1 ≤ b.front.length + 1 +
            (b.length + skipLength comment ((b.line :: b.rest).drop b.length))
          rw [reach] at hreach
          omega
  | @block quote line first rest n hquote hline hopens hrest _ =>
      have hmore := isPreamble_true_iff.mp hrest
      refine Or.inr ⟨⟨[], line, rest, quote, first, List.forall_mem_nil _, hquote, hline⟩, rfl,
        hopens, ?_, ?_⟩
      · change 0 + blockLength quote (first :: rest) ≤ blockLength quote (first :: rest) + n
        omega
      · change blockLength quote (first :: rest) + n ≤ 0 + (blockLength quote (first :: rest) +
          skipLength comment ((line :: rest).drop (blockLength quote (first :: rest))))
        omega

theorem isPreamble_of_opens (hopens : mayOpen b.line) (hle : b.front.length + b.length ≤ n)
    (h : n ≤ b.reach b.length) : IsPreamble comment mayOpen false b.whole n := by
  obtain ⟨m, rfl⟩ := Nat.exists_eq_add_of_le hle
  have hm : m ≤ skipLength comment ((b.line :: b.rest).drop b.length) := by
    rw [reach] at h
    omega
  rw [Nat.add_assoc]
  exact .append b.front_skipped
    (.block b.quote_mem b.line_eq hopens (isPreamble_true_iff.mpr hm))

end Block

structure DocBlock (comment : Text) extends Block comment where
  line_code : ¬IsSkipped comment line

namespace DocBlock

variable (b : DocBlock comment)

/-- The block ends on its first line, with something behind the quote. It is counted up to the next
line that holds the quote, and there is code among the lines that this adds. -/
def SwallowsCode : Prop :=
  b.quote <:+: b.first ∧ ¬b.quote <:+ b.first ∧
    ∃ l ∈ b.rest.take (blockLength b.quote b.rest), ¬IsSkipped comment l

/-- How many lines are taken for the block. On its first line only a quote at the end closes it. -/
def taken : Nat := if b.quote <:+ b.first then 1 else blockLength b.quote b.rest + 1

theorem leadingPreamble_whole : leadingPreamble comment b.whole = b.reach b.taken := by
  rw [leadingPreamble, Block.whole, preambleFrom_append b.front_skipped,
    preambleFrom_of_opens b.line_code b.quote_mem b.line_eq, Block.reach, taken]
  by_cases hend : b.quote <:+ b.first
  · rw [if_pos hend, if_pos hend]
    rfl
  · rw [if_neg hend, if_neg hend]
    rfl

theorem eq_of_mem_tripleQuotes {quote first : Text} (hquote : quote ∈ tripleQuotes)
    (h : b.line.trim = quote ++ first) : quote = b.quote ∧ first = b.first := by
  have hthree : ∀ q ∈ tripleQuotes, q.length = 3 := by decide
  refine List.append_inj (h.symm.trans b.line_eq) ?_
  rw [hthree quote hquote, hthree b.quote b.quote_mem]

theorem takeWhile_whole : b.whole.takeWhile (IsSkipped comment) = b.front := by
  rw [Block.whole, List.takeWhile_append_of_pos fun l hl => decide_eq_true (b.front_skipped l hl),
    List.takeWhile_cons_of_neg (by simpa using b.line_code), List.append_nil]

theorem skipLength_whole : skipLength comment b.whole = b.front.length := by
  rw [skipLength, b.takeWhile_whole]

theorem eq_of_whole_eq {b b' : DocBlock comment} (h : b.whole = b'.whole) : b = b' := by
  have hfront : b.front = b'.front := by rw [← b.takeWhile_whole, h, b'.takeWhile_whole]
  have hcode : b.line :: b.rest = b'.line :: b'.rest := by
    rw [Block.whole, Block.whole, hfront] at h
    exact List.append_cancel_left h
  obtain ⟨hline, hrest⟩ := List.cons.inj hcode
  obtain ⟨hquote, hfirst⟩ := b'.eq_of_mem_tripleQuotes b.quote_mem (hline ▸ b.line_eq)
  obtain ⟨⟨front, line, rest, quote, first, _, _, _⟩, _⟩ := b
  cases hfront
  cases hline
  cases hrest
  cases hquote
  cases hfirst
  rfl

/-- A preamble that does not end before the block holds all of it. -/
theorem isPreamble_whole_iff : IsPreamble comment (¬IsSkipped comment ·) false b.whole n ↔
    n ≤ b.front.length ∨ b.front.length + b.length ≤ n ∧ n ≤ b.reach b.length := by
  constructor
  · intro h
    rcases Block.exists_of_isPreamble h with hle | ⟨b', hwhole, hline, hplace⟩
    · exact Or.inl (b.skipLength_whole ▸ hle)
    · obtain rfl : ⟨b', hline⟩ = b := eq_of_whole_eq hwhole
      exact Or.inr hplace
  · rintro (h | ⟨hle, h⟩)
    · exact isPreamble_of_le_skipLength (b.skipLength_whole ▸ h)
    · exact b.isPreamble_of_opens b.line_code hle h

/-- What is taken for a block is the block, unless this ends on its first line in another way. -/
theorem taken_eq (h : b.quote <:+: b.first → b.quote <:+ b.first) : b.taken = b.length := by
  rw [taken, Block.length]
  by_cases hclosed : b.quote <:+: b.first
  · rw [if_pos (h hclosed), blockLength_cons_of_infix hclosed]
  · rw [if_neg fun hend => hclosed hend.isInfix, blockLength_cons_of_not_infix hclosed]

theorem taken_eq_of_late (hclosed : b.quote <:+: b.first) (hend : ¬b.quote <:+ b.first) :
    b.length = 1 ∧ b.taken = blockLength b.quote b.rest + 1 := by
  refine ⟨?_, if_neg hend⟩
  exact blockLength_cons_of_infix hclosed

theorem length_le_taken : b.length ≤ b.taken := by
  by_cases hlate : b.quote <:+: b.first → b.quote <:+ b.first
  · exact Nat.le_of_eq (b.taken_eq hlate).symm
  · obtain ⟨hclosed, hend⟩ := Classical.not_imp.mp hlate
    obtain ⟨hlength, htaken⟩ := b.taken_eq_of_late hclosed hend
    omega

theorem length_pos : 0 < b.length := by
  rw [Block.length, blockLength, List.length_cons]
  omega

theorem le_leadingPreamble_whole
    (h : IsPreamble comment (¬IsSkipped comment ·) false b.whole n) :
    n ≤ leadingPreamble comment b.whole := by
  rw [b.leadingPreamble_whole]
  have hreach := b.reach_le_reach b.length_le_taken
  rcases b.isPreamble_whole_iff.mp h with hfront | ⟨-, hle⟩
  · exact Nat.le_trans hfront (Nat.le_add_right _ _)
  · exact Nat.le_trans hle hreach

theorem reach_taken_le_iff : b.reach b.taken ≤ b.reach b.length ↔ ¬b.SwallowsCode := by
  by_cases hlate : b.quote <:+: b.first → b.quote <:+ b.first
  · rw [b.taken_eq hlate]
    exact iff_of_true (Nat.le_refl _) fun h => h.2.1 (hlate h.1)
  · obtain ⟨hclosed, hend⟩ := Classical.not_imp.mp hlate
    obtain ⟨hlength, htaken⟩ := b.taken_eq_of_late hclosed hend
    have hrest := blockLength_le b.quote b.rest
    rw [b.reach_le_reach_iff b.length_le_taken (by rw [htaken, List.length_cons]; omega), hlength,
      htaken, List.drop_succ_cons, List.drop_zero, Nat.add_sub_cancel]
    simp [SwallowsCode, hclosed, hend]

theorem lt_reach_taken : b.front.length < b.reach b.taken := by
  have hpos := b.length_pos
  have hle := b.length_le_taken
  rw [Block.reach]
  omega

/-- What is counted is a preamble unless it holds code that the block does not. -/
theorem isPreamble_leadingPreamble_whole_iff :
    IsPreamble comment (¬IsSkipped comment ·) false b.whole (leadingPreamble comment b.whole) ↔
      ¬b.SwallowsCode := by
  rw [isPreamble_whole_iff, b.leadingPreamble_whole, ← b.reach_taken_le_iff]
  have hpos := b.length_pos
  have hle := b.length_le_taken
  have hreach : b.front.length + b.taken ≤ b.reach b.taken := by
    rw [Block.reach]
    omega
  constructor
  · rintro (h | h)
    · omega
    · exact h.2
  · exact fun h => Or.inr ⟨by omega, h⟩

end DocBlock

/-- Without a block the preamble is made of the skipped lines. -/
theorem leadingPreamble_of_no_block (h : ¬∃ b : DocBlock comment, b.whole = lines) :
    leadingPreamble comment lines = skipLength comment lines := by
  obtain ⟨front, tail, rfl, hfront, htail⟩ : ∃ front tail, lines = front ++ tail ∧
      (∀ l ∈ front, IsSkipped comment l) ∧ ∀ l ∈ tail.head?, ¬IsSkipped comment l := by
    refine ⟨_, _, List.takeWhile_append_dropWhile.symm,
      fun _ hl => isSkipped_of_mem_takeWhile hl, fun l hl hskipped => ?_⟩
    have hnot := List.head?_dropWhile_not (fun l => decide (IsSkipped comment l)) lines
    rw [Option.mem_def.mp hl] at hnot
    exact of_decide_eq_false hnot hskipped
  rw [leadingPreamble, preambleFrom_append hfront, skipLength_append hfront]
  congr 1
  cases tail with
  | nil =>
      rw [preambleFrom]
      rfl
  | cons line rest =>
      have hline : ¬IsSkipped comment line := htail line rfl
      rw [skipLength_cons_of_not_isSkipped hline]
      -- the first line of code opens no block
      refine preambleFrom_of_not_opens hline (Or.inr fun hquote => h ?_)
      exact ⟨⟨⟨front, line, rest, _, _, hfront, hquote, (List.take_append_drop 3 _).symm⟩, hline⟩,
        rfl⟩

/-- Where no comment opens a block, no preamble is longer than what is counted. -/
theorem le_leadingPreamble (h : IsPreamble comment (¬IsSkipped comment ·) false lines n) :
    n ≤ leadingPreamble comment lines := by
  by_cases hblock : ∃ b : DocBlock comment, b.whole = lines
  · obtain ⟨b, rfl⟩ := hblock
    exact b.le_leadingPreamble_whole h
  · rw [leadingPreamble_of_no_block hblock]
    refine (Block.exists_of_isPreamble h).resolve_right ?_
    rintro ⟨b, hwhole, hline, -⟩
    exact hblock ⟨⟨b, hline⟩, hwhole⟩

theorem isPreamble_leadingPreamble_iff :
    IsPreamble comment (¬IsSkipped comment ·) false lines (leadingPreamble comment lines) ↔
      ∀ b : DocBlock comment, b.whole = lines → ¬b.SwallowsCode := by
  constructor
  · rintro h b rfl
    exact b.isPreamble_leadingPreamble_whole_iff.mp h
  · intro h
    by_cases hblock : ∃ b : DocBlock comment, b.whole = lines
    · obtain ⟨b, rfl⟩ := hblock
      exact b.isPreamble_leadingPreamble_whole_iff.mpr (h b rfl)
    · rw [leadingPreamble_of_no_block hblock]
      exact isPreamble_of_le_skipLength (Nat.le_refl _)

def IsPlainMark (comment : Text) : Prop := ∃ c ∈ comment.head?, c ≠ '"' ∧ c ≠ '\''

theorem not_isSkipped_of_isPlainMark (hmark : IsPlainMark comment) (hquote : quote ∈ tripleQuotes)
    (hline : line.trim = quote ++ first) : ¬IsSkipped comment line := by
  obtain ⟨c, hc, hdouble, hsingle⟩ := hmark
  obtain ⟨mark, rfl⟩ := List.head?_eq_some_iff.mp hc
  rw [IsSkipped, hline]
  simp only [tripleQuotes, List.mem_cons, List.not_mem_nil, or_false] at hquote
  rcases hquote with rfl | rfl
  · simp [hdouble]
  · simp [hsingle]

/-- What is counted is the longest preamble exactly if no block swallows code. -/
theorem isGreatest_of_isPlainMark_iff (hmark : IsPlainMark comment) :
    IsGreatest {n | IsPreamble comment (fun _ => True) false lines n}
        (leadingPreamble comment lines) ↔
      ∀ b : DocBlock comment, b.whole = lines → ¬b.SwallowsCode := by
  have hsame (n : Nat) : IsPreamble comment (fun _ => True) false lines n ↔
      IsPreamble comment (¬IsSkipped comment ·) false lines n := by
    refine isPreamble_iff_or.trans (or_iff_left_of_imp fun h => ?_)
    exact h.imp fun hquote hline _ => not_isSkipped_of_isPlainMark hmark hquote hline
  rw [← isPreamble_leadingPreamble_iff, ← hsame]
  exact and_iff_left fun n hn => le_leadingPreamble ((hsame n).mp hn)

example : leadingPreamble ['#'] ["\"\"\"Doc.\"\"\"  # note".toList, "x = 1".toList] = 2 := by
  decide +kernel

/-- A block that a comment opens, which starts with the mark of comments and with a quote. -/
structure CommentBlock (comment : Text) extends Block comment where
  line_comment : IsSkipped comment line

namespace CommentBlock

variable (c : CommentBlock comment)

def HoldsCode : Prop := ∃ l ∈ (c.line :: c.rest).take c.length, ¬IsSkipped comment l

theorem reach_le_skipLength_iff : c.reach c.length ≤ skipLength comment c.whole ↔ ¬c.HoldsCode := by
  rw [← c.reach_zero, c.reach_le_reach_iff (Nat.zero_le _) c.length_le, List.drop_zero,
    Nat.sub_zero, HoldsCode]
  simp only [not_exists, not_and, not_not]

theorem isPreamble_iff : IsPreamble comment (IsSkipped comment) false lines n ↔
    n ≤ skipLength comment lines ∨ ∃ c : CommentBlock comment, c.whole = lines ∧
      c.front.length + c.length ≤ n ∧ n ≤ c.reach c.length := by
  constructor
  · intro h
    rcases Block.exists_of_isPreamble h with hle | ⟨b, hwhole, hline, hplace⟩
    · exact Or.inl hle
    · exact Or.inr ⟨⟨b, hline⟩, hwhole, hplace⟩
  · rintro (hle | ⟨c, rfl, hle, hreach⟩)
    · exact isPreamble_of_le_skipLength hle
    · exact c.isPreamble_of_opens c.line_comment hle hreach

theorem isPreamble_reach :
    IsPreamble comment (IsSkipped comment) false c.whole (c.reach c.length) := by
  refine isPreamble_iff.mpr (Or.inr ⟨c, rfl, ?_, Nat.le_refl _⟩)
  rw [Block.reach]
  omega

end CommentBlock

theorem skipLength_le_leadingPreamble (comment : Text) (lines : List Text) :
    skipLength comment lines ≤ leadingPreamble comment lines :=
  le_leadingPreamble (isPreamble_of_le_skipLength (Nat.le_refl _))

/-- The blocks that comments open do not lead further than what is counted if each of them that
holds code ends no later than what is taken for the block that the code opens. -/
theorem forall_comment_le_iff :
    (∀ n, IsPreamble comment (IsSkipped comment) false lines n →
        n ≤ leadingPreamble comment lines) ↔
      ∀ c : CommentBlock comment, c.whole = lines → c.HoldsCode →
        ∃ b : DocBlock comment, b.whole = lines ∧ c.reach c.length ≤ b.reach b.taken := by
  constructor
  · rintro h c rfl hcode
    have hle := h _ c.isPreamble_reach
    by_cases hblock : ∃ b : DocBlock comment, b.whole = c.whole
    · obtain ⟨b, hwhole⟩ := hblock
      rw [← hwhole, b.leadingPreamble_whole] at hle
      exact ⟨b, hwhole, hle⟩
    · rw [leadingPreamble_of_no_block hblock, c.reach_le_skipLength_iff] at hle
      exact absurd hcode hle
  · intro h n hn
    have hskip := skipLength_le_leadingPreamble comment lines
    rcases CommentBlock.isPreamble_iff.mp hn with hle | ⟨c, rfl, -, hle⟩
    · exact Nat.le_trans hle hskip
    · by_cases hcode : c.HoldsCode
      · obtain ⟨b, hwhole, hreach⟩ := h c rfl hcode
        rw [← hwhole, b.leadingPreamble_whole]
        exact Nat.le_trans hle hreach
      · exact Nat.le_trans (Nat.le_trans hle (c.reach_le_skipLength_iff.mpr hcode)) hskip

/-- Where no block of a comment leads further, what is counted is a preamble exactly if a block that
swallows code is counted as far as one of them leads. -/
theorem isPreamble_leadingPreamble_iff_forall
    (hmost : ∀ n, IsPreamble comment (IsSkipped comment) false lines n →
      n ≤ leadingPreamble comment lines) :
    IsPreamble comment (fun _ => True) false lines (leadingPreamble comment lines) ↔
      ∀ b : DocBlock comment, b.whole = lines → b.SwallowsCode →
        ∃ c : CommentBlock comment, c.whole = lines ∧ c.reach c.length = b.reach b.taken := by
  rw [isPreamble_iff_or]
  constructor
  · rintro hpreamble b rfl hswallows
    have hcomment := hpreamble.resolve_left
      fun h => b.isPreamble_leadingPreamble_whole_iff.mp h hswallows
    have hcounted := b.leadingPreamble_whole
    rcases CommentBlock.isPreamble_iff.mp hcomment with hskip | ⟨c, hwhole, -, hreach⟩
    · rw [hcounted, b.skipLength_whole] at hskip
      exact absurd hskip (Nat.not_le_of_lt b.lt_reach_taken)
    · have hle := hmost _ (hwhole ▸ c.isPreamble_reach)
      exact ⟨c, hwhole, by omega⟩
  · intro hswallowed
    by_cases hsound : ∀ b : DocBlock comment, b.whole = lines → ¬b.SwallowsCode
    · exact Or.inl (isPreamble_leadingPreamble_iff.mpr hsound)
    · simp only [not_forall, not_not] at hsound
      obtain ⟨b, rfl, hswallows⟩ := hsound
      obtain ⟨c, hwhole, hreach⟩ := hswallowed b rfl hswallows
      rw [b.leadingPreamble_whole, ← hreach, ← hwhole]
      exact Or.inr c.isPreamble_reach

/-- Whatever the mark of comments, what is counted is the longest preamble exactly if two things
hold of the blocks. A block that swallows code is counted as far as a block that a comment opens
leads, and a block that a comment opens and that holds code leads no further than what is counted.
-/
theorem isGreatest_leadingPreamble_iff (comment : Text) (lines : List Text) :
    IsGreatest {n | IsPreamble comment (fun _ => True) false lines n}
        (leadingPreamble comment lines) ↔
      (∀ b : DocBlock comment, b.whole = lines → b.SwallowsCode →
        ∃ c : CommentBlock comment, c.whole = lines ∧ c.reach c.length = b.reach b.taken) ∧
      ∀ c : CommentBlock comment, c.whole = lines → c.HoldsCode →
        ∃ b : DocBlock comment, b.whole = lines ∧ c.reach c.length ≤ b.reach b.taken := by
  rw [← forall_comment_le_iff]
  constructor
  · rintro ⟨hmem, hmax⟩
    have hmost : ∀ n, IsPreamble comment (IsSkipped comment) false lines n →
        n ≤ leadingPreamble comment lines := fun n hn => hmax (isPreamble_iff_or.mpr (Or.inr hn))
    exact ⟨(isPreamble_leadingPreamble_iff_forall hmost).mp hmem, hmost⟩
  · rintro ⟨hswallowed, hmost⟩
    refine ⟨(isPreamble_leadingPreamble_iff_forall hmost).mpr hswallowed, fun n hn => ?_⟩
    rcases isPreamble_iff_or.mp hn with h | h
    · exact le_leadingPreamble h
    · exact hmost n h

end Blocks

end Preamble

end LineLint
