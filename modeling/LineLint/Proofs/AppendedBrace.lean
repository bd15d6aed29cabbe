import LineLint.Proofs.Acceptance
import LineLint.Proofs.LongestBlock
import LineLint.Proofs.TrimmedText

/-!
# The hunks of an appended brace

A header that gets a brace keeps its code, so that the hunks of the change lie in the blanks behind
it. Which of those blanks they take depends on where the first space stands among them.
-/

namespace LineLint

namespace Hunk

/-- The hunks that put a space and a brace in the place of the blanks behind a code of some length.
The first of those blanks that is a space is kept. -/
def ofAppendedBrace (length : Nat) (blanks : Text) : List Hunk :=
  let gap := blanks.takeWhile (· != ' ')
  if ' ' ∈ blanks then
    (if gap = [] then [] else [⟨length, length + gap.length, []⟩]) ++
      [⟨length + gap.length + 1, length + blanks.length, ['{']⟩]
  else [⟨length, length + blanks.length, [' ', '{']⟩]

section AppendedBrace

variable {code blanks : Text} {last : Char}

theorem ne_brace_of_blank {c : Char} (hc : isBlank c = true) : c ≠ '{' := by
  rintro rfl
  exact absurd hc (by decide)

theorem commonLength_brace {t : Text} (ht : ∀ c ∈ t, isBlank c = true) :
    commonLength t ['{'] = 0 := by
  cases t with
  | nil => rfl
  | cons c t => rw [commonLength_cons_cons, if_neg (ne_brace_of_blank (ht c List.mem_cons_self))]

/-- Only at the start of both do the two forms of a header share more characters than the code has.
-/
theorem start_of_lt_commonLength (hlast : code.getLast? = some last) (hcode : isBlank last = false)
    (hblanks : ∀ c ∈ blanks, isBlank c = true) {i j : Nat}
    (h : code.length < commonLength ((code ++ blanks).drop i) ((code ++ [' ', '{']).drop j)) :
    i = 0 ∧ j = 0 := by
  have hpos : 0 < code.length := List.length_pos_of_mem (List.mem_of_getLast? hlast)
  -- Behind the code only a space is a blank of both forms, and the second has it right there.
  obtain ⟨x, hx, hx'⟩ := getElem?_of_lt_commonLength h
  rw [List.getElem?_drop, List.getElem?_append_right (by omega)] at hx hx'
  have hblank : isBlank x = true := hblanks x (List.mem_of_getElem? hx)
  have hj : j = 0 := by
    rw [Nat.add_sub_cancel] at hx'
    rcases j with _ | _ | j
    · rfl
    · obtain rfl : '{' = x := by simpa using hx'
      exact absurd hblank (by decide)
    · simp at hx'
  refine ⟨?_, hj⟩
  cases i with
  | zero => rfl
  | succ i =>
      -- The last character of the code would have to be one of the blanks.
      obtain ⟨y, hy, hy'⟩ :=
        getElem?_of_lt_commonLength (Nat.lt_of_le_of_lt (Nat.sub_le code.length 1) h)
      rw [List.getElem?_drop, List.getElem?_append_right (by omega)] at hy
      rw [hj, List.drop_zero, List.getElem?_append_left (by omega), ← List.getLast?_eq_getElem?,
        hlast] at hy'
      obtain rfl : last = y := Option.some.inj hy'
      rw [hblanks _ (List.mem_of_getElem? hy)] at hcode
      cases hcode

theorem commonLength_appended_le (hlast : code.getLast? = some last) (hcode : isBlank last = false)
    (hblanks : ∀ c ∈ blanks, isBlank c = true) (i j : Nat) :
    commonLength ((code ++ blanks).drop i) ((code ++ [' ', '{']).drop j) ≤
      code.length + commonLength blanks [' ', '{'] := by
  by_contra hlt
  have hover := Nat.lt_of_not_le hlt
  obtain ⟨rfl, rfl⟩ := start_of_lt_commonLength hlast hcode hblanks
    (Nat.lt_of_le_of_lt (Nat.le_add_right _ _) hover)
  rw [List.drop_zero, List.drop_zero, commonLength_append] at hover
  omega

theorem longest_appended (hlast : code.getLast? = some last) (hcode : isBlank last = false)
    (hblanks : ∀ c ∈ blanks, isBlank c = true) :
    CommonBlock.longest (code ++ blanks) (code ++ [' ', '{']) =
      ⟨0, 0, code.length + commonLength blanks [' ', '{']⟩ := by
  have hpos : 0 < code.length := List.length_pos_of_mem (List.mem_of_getLast? hlast)
  refine CommonBlock.longest_eq (by omega) ?_ (by omega) (by omega)
    (commonLength_appended_le hlast hcode hblanks)
  rw [List.drop_zero, List.drop_zero, commonLength_append]

theorem longest_blanks {gap after : Text} (hgap : ' ' ∉ gap)
    (hblanks : ∀ c ∈ gap ++ ' ' :: after, isBlank c = true) :
    CommonBlock.longest (gap ++ ' ' :: after) [' ', '{'] = ⟨gap.length, 0, 1⟩ := by
  have hnone (i j : Nat) (c : Char) (h : ((gap ++ ' ' :: after).drop i)[j]? = some c) : c ≠ '{' :=
    ne_brace_of_blank (hblanks c (List.mem_of_mem_drop (List.mem_of_getElem? h)))
  have hle (i j : Nat) :
      commonLength ((gap ++ ' ' :: after).drop i) (([' ', '{'] : Text).drop j) ≤ 1 := by
    by_contra hlt
    obtain ⟨c, hc, hc'⟩ := getElem?_of_lt_commonLength (Nat.lt_of_not_le hlt)
    refine hnone i 1 c hc ?_
    rw [List.getElem?_drop] at hc'
    rcases j with _ | j
    · simpa using hc'.symm
    · simp at hc'
  refine CommonBlock.longest_eq (by omega) ?_ ?_ (by omega) hle
  · have hafter : ∀ c ∈ after, isBlank c = true := fun c hc =>
      hblanks c (List.mem_append_right _ (List.mem_cons_of_mem _ hc))
    rw [List.drop_zero, List.drop_left, commonLength_cons_cons, if_pos rfl,
      commonLength_brace hafter]
  · intro i hi j
    by_contra hlt
    obtain ⟨c, hc, hc'⟩ :=
      getElem?_of_lt_commonLength (Nat.lt_of_lt_of_le Nat.one_pos (Nat.le_of_not_lt hlt))
    have hbrace : c ≠ '{' := hnone i 0 c hc
    rw [List.getElem?_drop, Nat.add_zero, List.getElem?_append_left hi] at hc
    have hspace : c ≠ ' ' := fun he => hgap (he ▸ List.mem_of_getElem? hc)
    rw [List.getElem?_drop] at hc'
    have hmem := List.mem_of_getElem? hc'
    simp [hbrace, hspace] at hmem

theorem disjoint_brace {t : Text} (ht : ∀ c ∈ t, isBlank c = true) : ∀ c ∈ t, c ∉ ['{'] := by
  intro c hc hmem
  exact ne_brace_of_blank (ht c hc) (by simpa using hmem)

theorem betweenFrom_blanks (hblanks : ∀ c ∈ blanks, isBlank c = true) (fuel offset : Nat) :
    betweenFrom (fuel + 1) offset blanks [' ', '{'] = ofAppendedBrace offset blanks := by
  by_cases hspace : ' ' ∈ blanks
  · obtain ⟨gap, after, rfl, hgap⟩ := List.eq_append_cons_of_mem hspace
    have hgapBlank : ∀ c ∈ gap, isBlank c = true := fun c hc =>
      hblanks c (List.mem_append_left _ hc)
    have hafter : ∀ c ∈ after, isBlank c = true := fun c hc =>
      hblanks c (List.mem_append_right _ (List.mem_cons_of_mem _ hc))
    have hleft : betweenFrom fuel offset gap [] =
        if gap = [] then [] else [⟨offset, offset + gap.length, []⟩] := by
      split_ifs with hempty
      · rw [hempty, betweenFrom_nil_nil]
      · exact betweenFrom_of_disjoint (by simp) (Or.inl hempty) _ _
    have hright : (gap ++ ' ' :: after).drop (gap.length + 1) = after := by
      simp [List.drop_append]
    rw [betweenFrom_of_longest (longest_blanks hgap hblanks) (by simp), ofAppendedBrace,
      takeWhile_bne_append hgap after, if_pos hspace]
    simp only [List.take_left, List.take_zero, hleft, hright, List.drop_succ_cons, List.drop_zero]
    rw [betweenFrom_of_disjoint (disjoint_brace hafter) (by simp), Nat.add_assoc]
    congr 3
    simp only [List.length_append, List.length_cons]
    omega
  · rw [ofAppendedBrace, if_neg hspace]
    refine betweenFrom_of_disjoint ?_ (by simp) _ _
    intro c hc hmem
    rcases List.mem_cons.mp hmem with rfl | hmem
    · exact hspace hc
    · exact disjoint_brace hblanks c hc hmem

theorem between_appended (hlast : code.getLast? = some last) (hcode : isBlank last = false)
    (hblanks : ∀ c ∈ blanks, isBlank c = true) :
    between (code ++ blanks) (code ++ [' ', '{']) = ofAppendedBrace code.length blanks := by
  have hpos : 0 < code.length := List.length_pos_of_mem (List.mem_of_getLast? hlast)
  obtain ⟨n, hn⟩ := Nat.exists_eq_add_one.mpr hpos
  have hfuel : (code ++ blanks).length = n + blanks.length + 1 := by
    rw [List.length_append]
    omega
  rw [between, hfuel, betweenFrom_of_longest (longest_appended hlast hcode hblanks)
    (by simp only [hn]; omega)]
  simp only [List.take_zero, betweenFrom_nil_nil, List.nil_append, Nat.zero_add]
  cases blanks with
  | nil =>
      rw [commonLength_nil_left, Nat.add_zero, List.append_nil, List.drop_length, List.drop_left]
      exact betweenFrom_of_disjoint (by simp) (by simp) _ _
  | cons c rest =>
      by_cases hspace : c = ' '
      · have hrest : ∀ c ∈ rest, isBlank c = true := fun c hc =>
          hblanks c (List.mem_cons_of_mem _ hc)
        have hdrop (t : Text) : (code ++ ' ' :: t).drop (code.length + 1) = t := by
          simp [List.drop_append]
        rw [hspace, commonLength_cons_cons, if_pos rfl, commonLength_brace hrest, hdrop, hdrop,
          ofAppendedBrace, if_pos List.mem_cons_self,
          betweenFrom_of_disjoint (disjoint_brace hrest) (by simp)]
        simp only [List.takeWhile_cons, bne_self_eq_false, Bool.false_eq_true, if_false, if_true,
          List.nil_append, List.length_nil, List.length_cons, Nat.add_zero]
        congr 2
        omega
      · rw [commonLength_cons_cons, if_neg hspace, Nat.add_zero, List.drop_left, List.drop_left,
          List.length_cons, ← Nat.add_assoc]
        exact betweenFrom_blanks hblanks _ _

end AppendedBrace

theorem conflicts_end_eq_false {h k : Hunk} {n : Nat} (hstart : h.start = n) (hstop : h.stop = n)
    (hk : k.stop ≤ n) : h.conflicts k = false := by
  have hinsert : h.isInsert = true := by simp [isInsert, hstart, hstop]
  simp only [conflicts, hinsert, if_true, Bool.true_and]
  split_ifs
  · rfl
  · rfl
  · simp only [Bool.and_eq_false_iff, decide_eq_false_iff_not]
    omega

/-- Where no blank or a single space ends the header, the brace is inserted at its end. -/
theorem ofAppendedBrace_at_end {blanks : Text} (h : blanks = [] ∨ blanks = [' ']) (length : Nat)
    {k : Hunk} (hk : k ∈ ofAppendedBrace length blanks) :
    k.start = length + blanks.length ∧ k.stop = length + blanks.length := by
  rcases h with rfl | rfl
  · obtain rfl := List.mem_singleton.mp hk
    exact ⟨rfl, rfl⟩
  · obtain rfl := List.mem_singleton.mp hk
    exact ⟨rfl, rfl⟩

end Hunk

namespace Composition

theorem stop_le_of_mem_acceptFrom {base : Text} {c : Composition} {position : Nat}
    {revisions : List Text} (hc : ∀ k ∈ c.accepted, k.stop ≤ base.length) :
    ∀ k ∈ (acceptFrom base c position revisions).accepted, k.stop ≤ base.length := by
  induction revisions generalizing c position with
  | nil => exact hc
  | cons revision rest ih =>
      refine ih fun k hk => ?_
      cases hclash : c.clashes base revision with
      | true =>
          rw [accept_of_clashes hclash] at hk
          exact hc k hk
      | false =>
          rw [accept_of_not_clashes hclash] at hk
          rcases mem_extend.mp hk with hk | hk
          · exact hc k hk
          · exact (Hunk.bounds_of_mem_between hk).2

theorem stop_le_of_mem_accepted (base : Text) (revisions : List Text) :
    ∀ k ∈ (ofRevisions base revisions).accepted, k.stop ≤ base.length :=
  stop_le_of_mem_acceptFrom (by simp)

end Composition

/-- The hunks of a line that gets a brace lie in the blanks at its end. -/
theorem Hunk.between_appended_line {line : Text} (h : line.allBlank = false) :
    Hunk.between line.dropIndentation (line.trimRight ++ [' ', '{']).dropIndentation =
      Hunk.ofAppendedBrace line.dropIndentation.trimRight.length
        line.dropIndentation.trailingBlanks := by
  have hbase : line.dropIndentation.allBlank = false := by rwa [Text.allBlank_dropIndentation]
  obtain ⟨last, hlast, hcode⟩ := Text.getLast?_trimRight hbase
  have hbetween := Hunk.between_appended hlast hcode
    fun c hc => @Text.isBlank_of_mem_trailingBlanks line.dropIndentation c hc
  rwa [Text.trimRight_append_trailingBlanks, ← Text.dropIndentation_trimRight_append h] at hbetween

/-- A brace that is put behind a line without blanks at its end, or with a single space, clashes
with no other revision of the line. -/
theorem Composition.clashes_appended_eq_false {line : Text} (h : line.allBlank = false)
    (hend : line.dropIndentation.trailingBlanks = [] ∨ line.dropIndentation.trailingBlanks = [' '])
    (revisions : List Text) :
    (Composition.ofRevisions line.dropIndentation revisions).clashes line.dropIndentation
      (line.trimRight ++ [' ', '{']) = false := by
  refine Composition.clashes_eq_false_iff.mpr fun hunk hhunk k hk => ?_
  rw [Hunk.between_appended_line h] at hhunk
  obtain ⟨hstart, hstop⟩ := Hunk.ofAppendedBrace_at_end hend _ hhunk
  have hle := Composition.stop_le_of_mem_accepted line.dropIndentation revisions k hk
  rw [← Text.trimRight_append_trailingBlanks line.dropIndentation, List.length_append] at hle
  exact Hunk.conflicts_end_eq_false hstart hstop hle

end LineLint
