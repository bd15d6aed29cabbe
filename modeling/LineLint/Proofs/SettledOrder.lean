import LineLint.Proofs.MatchedText
import LineLint.Proofs.MovedLines
import LineLint.Proofs.SimultaneousFixes
import LineLint.Proofs.TrimmedText
import LineLint.PythonLanguage

/-!
# Relocation settles

Lines that have been relocated are not relocated again. The preamble ends where it did, since a
statement that moves starts with a line of code, and each statement that has moved is followed by
the next one or, if its parentheses are left open, by lines that it takes with it where they are.
-/

namespace LineLint

section Preamble

variable {comment quote : Text} {lines ending : List Text}

theorem docBlockLength_take_append (h : docBlockLength quote lines < lines.length) {n : Nat}
    (hn : docBlockLength quote lines ≤ n) :
    docBlockLength quote (lines.take n ++ ending) = docBlockLength quote lines := by
  induction lines generalizing n with
  | nil => simp [docBlockLength] at h
  | cons line rest ih =>
      rw [docBlockLength] at h hn ⊢
      rw [List.length_cons] at h
      obtain ⟨n, rfl⟩ : ∃ k, n = k + 1 := by
        refine ⟨n - 1, ?_⟩
        split_ifs at hn <;> omega
      rw [List.take_succ_cons, List.cons_append, docBlockLength]
      split_ifs at h hn ⊢ with hquote
      · rfl
      · rw [ih (by omega) (by omega)]

def EndsPreamble (comment line : Text) : Prop :=
  ∀ docSeen rest, preambleFrom comment docSeen (line :: rest) = 0

/-- A preamble that ends before the last line stays the same if other code follows it. -/
theorem preambleFrom_take_append {docSeen : Bool} {line : Text} {rest : List Text}
    (hends : EndsPreamble comment line)
    (h : preambleFrom comment docSeen lines < lines.length) :
    preambleFrom comment docSeen
      (lines.take (preambleFrom comment docSeen lines) ++ line :: rest) =
        preambleFrom comment docSeen lines := by
  fun_induction preambleFrom comment docSeen lines with
  | case1 => simp at h
  | case2 docSeen first others stripped hskip ih =>
      rw [List.take_succ_cons, List.cons_append, preambleFrom, if_pos hskip,
        ih (by simpa using h)]
  | case3 docSeen first others stripped hcode quote hend => exact hends docSeen rest
  | case4 docSeen first others stripped hcode quote hopens hcloses ih =>
      rw [List.take_succ_cons, List.cons_append, preambleFrom, if_neg hcode, if_neg hopens,
        if_pos hcloses, ih (by simpa using h)]
  | case5 docSeen first others stripped hcode quote hopens hcloses body ih =>
      rw [List.length_cons] at h
      have hbody : docBlockLength quote others < others.length := by omega
      have hdoc : docBlockLength quote
          (others.take (preambleFrom comment true (others.drop body) + body) ++ line :: rest) =
            docBlockLength quote others :=
        docBlockLength_take_append hbody (by omega)
      have hafter : (others.take (preambleFrom comment true (others.drop body) + body) ++
          line :: rest).drop body =
          (others.drop body).take (preambleFrom comment true (others.drop body)) ++
            line :: rest := by
        rw [List.drop_append_of_le_length (by rw [List.length_take]; omega), List.drop_take,
          Nat.add_sub_cancel]
      have hrest : preambleFrom comment true (others.drop body) < (others.drop body).length := by
        rw [List.length_drop]
        omega
      rw [List.take_succ_cons, List.cons_append, preambleFrom, if_neg hcode, if_neg hopens,
        if_neg hcloses]
      simp only
      rw [hdoc, hafter, ih hrest]

theorem head?_trim {line : Text} {c : Char} (hhead : line.head? = some c)
    (hblank : isBlank c = false) : line.trim.head? = some c := by
  obtain ⟨rest, rfl⟩ : ∃ rest, line = c :: rest := by
    cases line with
    | nil => cases hhead
    | cons x rest => exact ⟨rest, by rw [Option.some.inj hhead]⟩
  have hleft : Text.trimLeft (c :: rest) = c :: rest := by simp [Text.trimLeft, hblank]
  have hcode : Text.allBlank (c :: rest) = false := by simp [Text.allBlank, hblank]
  have hsplit := Text.trimRight_append_trailingBlanks (c :: rest)
  obtain ⟨x, others, htrim⟩ := List.exists_cons_of_ne_nil (Text.trimRight_ne_nil hcode)
  rw [htrim, List.cons_append] at hsplit
  rw [Text.trim, hleft, htrim, (List.cons.inj hsplit).1, List.head?_cons]

/-- A line ends the preamble if it starts with neither a blank, nor a quote, nor a comment. -/
theorem endsPreamble_of_head? {line mark : Text} {c d : Char} (hhead : line.head? = some c)
    (hblank : isBlank c = false) (hmark : c ≠ d) (hquotes : c ≠ '"' ∧ c ≠ '\'') :
    EndsPreamble (d :: mark) line := by
  intro docSeen rest
  obtain ⟨others, htrim⟩ : ∃ others, line.trim = c :: others := by
    have := head?_trim hhead hblank
    cases h : line.trim with
    | nil => simp [h] at this
    | cons x others => exact ⟨others, by simpa [h] using this⟩
  have hquote : tripleQuotes.contains ((c :: others).take 3) = false := by
    simp [tripleQuotes, hquotes]
  rw [preambleFrom]
  simp only [htrim, List.isEmpty_cons, List.isPrefixOf, beq_eq_false_iff_ne.mpr hmark.symm,
    Bool.false_and, Bool.or_self, Bool.false_eq_true, if_false, hquote, Bool.not_false,
    Bool.or_true, if_true]

end Preamble

namespace Relocation

def entriesOf {α : Type} (wanted : Bool) (marks : List Bool) (xs : List α) : List α :=
  ((marks.zip xs).filter fun entry => entry.1 == wanted).map (·.2)

section Entries

variable {α : Type} {wanted mark : Bool} {marks : List Bool} {xs : List α} {x : α} {first : Nat}

theorem entriesOf_cons :
    entriesOf wanted (mark :: marks) (x :: xs) =
      if mark = wanted then x :: entriesOf wanted marks xs else entriesOf wanted marks xs := by
  by_cases h : mark = wanted <;> simp [entriesOf, h]

theorem filterMap_positionsOf (hlength : marks.length = (xs.drop first).length) :
    (positionsOf wanted first marks).filterMap (fun i => xs[i]?) =
      entriesOf wanted marks (xs.drop first) := by
  induction marks generalizing first with
  | nil => simp [entriesOf, positionsOf]
  | cons mark marks ih =>
      rw [List.length_cons, List.length_drop] at hlength
      have hlt : first < xs.length := by omega
      have hrest : (positionsOf wanted (first + 1) marks).filterMap (fun i => xs[i]?) =
          entriesOf wanted marks (xs.drop (first + 1)) := by
        apply ih
        rw [List.length_drop]
        omega
      rw [List.drop_eq_getElem_cons hlt, entriesOf_cons, ← hrest, positionsOf, List.zipIdx_cons]
      by_cases h : mark = wanted <;> simp [h, hlt, positionsOf]

theorem entriesOf_false_of_entriesOf_true (hlength : marks.length = xs.length)
    (h : entriesOf true marks xs = []) : entriesOf false marks xs = xs := by
  induction marks generalizing xs with
  | nil =>
      obtain rfl : xs = [] := List.eq_nil_of_length_eq_zero hlength.symm
      rfl
  | cons mark marks ih =>
      cases xs with
      | nil => cases hlength
      | cons x xs =>
          rw [entriesOf_cons] at h ⊢
          cases mark with
          | true => cases h
          | false =>
              rw [if_neg Bool.false_ne_true] at h
              rw [if_pos rfl, ih (by simpa using hlength) h]

end Entries

section Settled

variable {pattern : Pattern} {style : LiteralStyle}

/-- The lines that move, one after the other, move again, whatever follows them. -/
theorem movedFrom_entriesOf_append (balance : Int) (lines after : List Text) :
    ∃ last, movedFrom pattern style balance
      (entriesOf true (movedFrom pattern style balance lines) lines ++ after) =
        List.replicate (entriesOf true (movedFrom pattern style balance lines) lines).length
          true ++ movedFrom pattern style last after := by
  induction lines generalizing balance with
  | nil => exact ⟨balance, rfl⟩
  | cons line rest ih =>
      by_cases hpos : 0 < balance
      · obtain ⟨last, hlast⟩ := ih (balance + parenBalance style line)
        refine ⟨last, ?_⟩
        rw [movedFrom_cons_of_pos hpos, entriesOf_cons, if_pos rfl, List.cons_append,
          movedFrom_cons_of_pos hpos, hlast, List.length_cons, List.replicate_succ,
          List.cons_append]
      · cases hstarts : startsStatement pattern line with
        | true =>
            obtain ⟨last, hlast⟩ := ih (parenBalance style line)
            refine ⟨last, ?_⟩
            rw [movedFrom_cons_of_starts hpos hstarts, entriesOf_cons, if_pos rfl,
              List.cons_append, movedFrom_cons_of_starts hpos hstarts, hlast, List.length_cons,
              List.replicate_succ, List.cons_append]
        | false =>
            obtain ⟨last, hlast⟩ := ih 0
            refine ⟨last, ?_⟩
            rw [movedFrom_cons_of_not_starts hpos hstarts, entriesOf_cons,
              if_neg Bool.false_ne_true, movedFrom_of_not_pos hpos, hlast]

theorem startsStatement_of_mem_entriesOf {balance : Int} {lines : List Text} {line : Text}
    (h : line ∈ entriesOf false (movedFrom pattern style balance lines) lines) :
    startsStatement pattern line = false := by
  induction lines generalizing balance with
  | nil => simp [entriesOf] at h
  | cons first rest ih =>
      by_cases hpos : 0 < balance
      · rw [movedFrom_cons_of_pos hpos, entriesOf_cons, if_neg (by simp)] at h
        exact ih h
      · cases hstarts : startsStatement pattern first with
        | true =>
            rw [movedFrom_cons_of_starts hpos hstarts, entriesOf_cons, if_neg (by simp)] at h
            exact ih h
        | false =>
            rw [movedFrom_cons_of_not_starts hpos hstarts, entriesOf_cons, if_pos rfl] at h
            rcases List.mem_cons.mp h with rfl | h
            · exact hstarts
            · exact ih h

theorem startsStatement_of_entriesOf_eq_cons {lines others : List Text} {line : Text}
    (h : entriesOf true (movedFrom pattern style 0 lines) lines = line :: others) :
    startsStatement pattern line = true := by
  induction lines with
  | nil => cases h
  | cons first rest ih =>
      cases hstarts : startsStatement pattern first with
      | true =>
          rw [movedFrom_cons_of_starts (by omega) hstarts, entriesOf_cons, if_pos rfl] at h
          rwa [← (List.cons.inj h).1]
      | false =>
          rw [movedFrom_cons_of_not_starts (by omega) hstarts, entriesOf_cons,
            if_neg (by simp)] at h
          exact ih h

theorem movedFrom_zero_of_no_start {lines : List Text}
    (h : ∀ line ∈ lines, startsStatement pattern line = false) :
    movedFrom pattern style 0 lines = List.replicate lines.length false := by
  induction lines with
  | nil => rfl
  | cons line rest ih =>
      obtain ⟨hfirst, hrest⟩ := List.forall_mem_cons.mp h
      rw [movedFrom_cons_of_not_starts (by omega) hfirst, ih hrest, List.length_cons,
        List.replicate_succ]

/-- Of lines that start no statement, those at the front are taken along until the parentheses are
closed, and the rest stays. -/
theorem movedFrom_of_no_start (balance : Int) {lines : List Text}
    (h : ∀ line ∈ lines, startsStatement pattern line = false) :
    ∃ taken left, movedFrom pattern style balance lines =
      List.replicate taken true ++ List.replicate left false := by
  induction lines generalizing balance with
  | nil => exact ⟨0, 0, rfl⟩
  | cons line rest ih =>
      by_cases hpos : 0 < balance
      · obtain ⟨taken, left, htaken⟩ :=
          ih (balance + parenBalance style line) (List.forall_mem_cons.mp h).2
        refine ⟨taken + 1, left, ?_⟩
        rw [movedFrom_cons_of_pos hpos, htaken, List.replicate_succ, List.cons_append]
      · refine ⟨0, (line :: rest).length, ?_⟩
        rw [movedFrom_of_not_pos hpos, movedFrom_zero_of_no_start h]
        rfl

variable {lines : List Text}

theorem filter_range'_add {test : Nat → Bool} {first n m : Nat}
    (h : ∀ i, first ≤ i → (test i = true ↔ i < first + n)) :
    (List.range' first (n + m)).filter test = List.range' first n := by
  rw [← List.range'_append_1, List.filter_append, List.filter_eq_self.mpr,
    List.filter_eq_nil_iff.mpr, List.append_nil]
  · intro i hi
    have hrange := List.mem_range'_1.mp hi
    rw [h i (by omega)]
    omega
  · intro i hi
    have hrange := List.mem_range'_1.mp hi
    rw [h i hrange.1]
    exact hrange.2

theorem filter_not_range'_add {test : Nat → Bool} {first n m : Nat}
    (h : ∀ i, first ≤ i → (test i = true ↔ i < first + n)) :
    ((List.range' first (n + m)).filter fun i => !test i) = List.range' (first + n) m := by
  rw [← List.range'_append_1, List.filter_append, List.filter_eq_nil_iff.mpr,
    List.filter_eq_self.mpr, List.nil_append]
  · intro i hi
    have hrange := List.mem_range'_1.mp hi
    rw [Bool.not_eq_true', ← Bool.not_eq_true, h i (by omega)]
    omega
  · intro i hi
    have hrange := List.mem_range'_1.mp hi
    rw [Bool.not_eq_true', Bool.not_eq_false, h i hrange.1]
    exact hrange.2

theorem order_of_replicate {taken left : Nat}
    (h : marks pattern style lines =
      List.replicate taken true ++ List.replicate left false) :
    order pattern style lines = List.range lines.length := by
  have hlength : lines.length - preambleLength style lines = taken + left := by
    rw [← length_marks pattern, h]
    simp
  have hmoved (i : Nat) (hi : preambleLength style lines ≤ i) :
      isMoved pattern style lines i = true ↔ i < preambleLength style lines + taken := by
    rw [isMoved, h, Bool.and_eq_true, decide_eq_true_eq, beq_iff_eq, List.getElem?_append,
      List.length_replicate, and_iff_right hi]
    split_ifs with hlt
    · simp [hlt]
      omega
    · simp [List.getElem?_replicate]
      omega
  rw [order_eq_filter, ← range_append_below, below, hlength, filter_range'_add hmoved,
    filter_not_range'_add hmoved, List.range'_append_1]

theorem filterMap_order :
    (order pattern style lines).filterMap (fun i => lines[i]?) =
      lines.take (preambleLength style lines) ++
        (entriesOf true (marks pattern style lines) (lines.drop (preambleLength style lines)) ++
          entriesOf false (marks pattern style lines)
            (lines.drop (preambleLength style lines))) := by
  have hlength : (marks pattern style lines).length =
      (lines.drop (preambleLength style lines)).length := length_movedFrom ..
  have hpreamble : (List.range (preambleLength style lines)).filterMap (fun i => lines[i]?) =
      lines.take (preambleLength style lines) := by
    have htake := Fixing.filterMap_range_getElem? (lines.take (preambleLength style lines))
    rw [List.length_take_of_le (preambleLength_le style lines)] at htake
    rw [← htake]
    refine List.filterMap_congr fun i hi => ?_
    rw [List.getElem?_take_of_lt (List.mem_range.mp hi)]
  rw [order_eq_positionsOf, List.filterMap_append, List.filterMap_append, hpreamble,
    filterMap_positionsOf hlength, filterMap_positionsOf hlength]

/-- The preamble ends where it did: the line behind it is the one that was there, or starts a
statement. -/
theorem preambleLength_filterMap_order
    (hends : ∀ line, startsStatement pattern line = true →
      EndsPreamble (match style.lineComment with | some (c :: mark) => c :: mark | _ => ['#'])
        line) :
    preambleLength style ((order pattern style lines).filterMap fun i => lines[i]?) =
      preambleLength style lines := by
  have hlength : (marks pattern style lines).length =
      (lines.drop (preambleLength style lines)).length := length_movedFrom ..
  rw [filterMap_order]
  cases hmoved : entriesOf true (marks pattern style lines)
      (lines.drop (preambleLength style lines)) with
  | nil =>
      rw [entriesOf_false_of_entriesOf_true hlength hmoved, List.nil_append,
        List.take_append_drop]
  | cons line others =>
      have hstarts := startsStatement_of_entriesOf_eq_cons hmoved
      have hlt : preambleLength style lines < lines.length := by
        by_contra hge
        rw [List.drop_eq_nil_of_le (by omega)] at hmoved
        simp [entriesOf] at hmoved
      exact preambleFrom_take_append (hends line hstarts) hlt

/-- In the new order the lines that move are the first ones below the preamble. -/
theorem exists_marks_filterMap_order
    (hpreamble : preambleLength style ((order pattern style lines).filterMap fun i => lines[i]?) =
      preambleLength style lines) :
    ∃ taken left,
      marks pattern style ((order pattern style lines).filterMap fun i => lines[i]?) =
        List.replicate taken true ++ List.replicate left false := by
  have hbelow : ((order pattern style lines).filterMap fun i => lines[i]?).drop
      (preambleLength style lines) =
        entriesOf true (marks pattern style lines) (lines.drop (preambleLength style lines)) ++
          entriesOf false (marks pattern style lines)
            (lines.drop (preambleLength style lines)) := by
    rw [filterMap_order, List.drop_left' (List.length_take_of_le (preambleLength_le style lines))]
  obtain ⟨last, hlast⟩ := @movedFrom_entriesOf_append pattern style 0
    (lines.drop (preambleLength style lines)) (entriesOf false (marks pattern style lines)
      (lines.drop (preambleLength style lines)))
  obtain ⟨taken, left, htaken⟩ := @movedFrom_of_no_start pattern style last
    (entriesOf false (marks pattern style lines) (lines.drop (preambleLength style lines)))
    fun line hline => startsStatement_of_mem_entriesOf hline
  refine ⟨(entriesOf true (marks pattern style lines)
    (lines.drop (preambleLength style lines))).length + taken, left, ?_⟩
  rw [marks, hpreamble, hbelow, ← List.replicate_append_replicate, List.append_assoc, ← htaken]
  exact hlast

/-- Lines that have been put in order stay where they are, if no statement that moves can be taken
for a part of the preamble. -/
theorem order_filterMap_order
    (hends : ∀ line, startsStatement pattern line = true →
      EndsPreamble (match style.lineComment with | some (c :: mark) => c :: mark | _ => ['#'])
        line) :
    order pattern style ((order pattern style lines).filterMap fun i => lines[i]?) =
      List.range lines.length := by
  have hpreamble := @preambleLength_filterMap_order pattern style lines hends
  obtain ⟨taken, left, hmarks⟩ := exists_marks_filterMap_order hpreamble
  rw [order_of_replicate hmarks,
    Fixing.filterMap_getElem?_of_perm (order_perm pattern style lines), List.length_map,
    (order_perm pattern style lines).length_eq, List.length_range]

end Settled

section Imports

open ImportLayout (importLine)

theorem head?_of_matchesStart_importLine {line : Text} (h : importLine.matchesStart line = true) :
    line.head? = some 'i' ∨ line.head? = some 'f' := by
  obtain ⟨d, hd⟩ := Pattern.matchesStart_iff.mp h
  obtain ⟨behindBlanks, hblanks, -⟩ := Pattern.mem_results_append_iff.mp hd
  obtain ⟨behindWord, hword, -⟩ := Pattern.mem_results_append_iff.mp hblanks
  obtain ⟨atStart, hstart, hword⟩ := Pattern.mem_results_append_iff.mp hword
  obtain rfl := Pattern.eq_of_mem_edge hstart
  obtain ⟨word, hmem, hword⟩ := Pattern.mem_results_choice hword
  have hline {t : String} (hresult : behindWord ∈ (Pattern.text t).results (Cursor.atStart line)) :
      line = t.toList ++ behindWord.rest := (Pattern.passes_of_mem_textPattern hresult).rest
  rcases List.mem_cons.mp hmem with rfl | hmem
  · exact Or.inl (by rw [hline hword]; rfl)
  · obtain rfl := List.mem_singleton.mp hmem
    exact Or.inr (by rw [hline hword]; rfl)

theorem startsStatement_importLine (line : Text) :
    startsStatement importLine line = importLine.matchesStart line := by
  cases h : importLine.matchesStart line with
  | false => simp [startsStatement, h]
  | true =>
      rcases head?_of_matchesStart_importLine h with hhead | hhead <;>
        simp [startsStatement, h, hhead, isBlank]

theorem endsPreamble_of_importLine {line : Text} (h : importLine.matchesStart line = true) :
    EndsPreamble ['#'] line := by
  rcases head?_of_matchesStart_importLine h with hhead | hhead
  · exact endsPreamble_of_head? hhead (by decide) (by decide) (by decide)
  · exact endsPreamble_of_head? hhead (by decide) (by decide) (by decide)

/-- The order of the lines of a module is the preamble, the lines of the imports, and the rest, each
in their old order; no line of the rest starts an import. Lines in this order stay in it. -/
theorem order_importLine (lines : List Text) :
    let order := order importLine Python.profile.style
    let preamble := leadingPreamble ['#'] lines
    ∃ hoisted rest : List Nat,
      order lines = List.range preamble ++ hoisted ++ rest ∧
      (order lines).Perm (List.range lines.length) ∧
      hoisted.Pairwise (· < ·) ∧
      rest.Pairwise (· < ·) ∧
      (∀ i, i ∈ hoisted ↔ i < lines.length ∧ ∃ first, preamble ≤ first ∧ first ≤ i ∧
        ReachesFrom importLine Python.profile.style lines first i) ∧
      (∀ i ∈ rest, ∀ line, lines[i]? = some line → importLine.matchesStart line = false) ∧
      order ((order lines).filterMap fun i => lines[i]?) = List.range lines.length := by
  intro order preamble
  have hbelow : (below Python.profile.style lines).Pairwise (· < ·) := List.pairwise_lt_range'
  refine ⟨(below Python.profile.style lines).filter (isMoved importLine Python.profile.style lines),
    (below Python.profile.style lines).filter fun i =>
      !isMoved importLine Python.profile.style lines i, ?_, order_perm _ _ _,
    hbelow.sublist List.filter_sublist, hbelow.sublist List.filter_sublist, ?_, ?_, ?_⟩
  · rw [List.append_assoc]
    exact order_eq_filter importLine Python.profile.style lines
  · intro i
    rw [List.mem_filter, and_iff_right_of_imp]
    · exact isMoved_iff importLine Python.profile.style lines i
    · intro hmoved
      obtain ⟨hlt, first, hle, hfirst, -⟩ := (isMoved_iff _ _ _ _).mp hmoved
      rw [below, List.mem_range'_1]
      omega
  · intro i hi line hline
    obtain ⟨hbelow, hstays⟩ := List.mem_filter.mp hi
    obtain ⟨hle, hlt⟩ := List.mem_range'_1.mp hbelow
    rw [← Bool.not_eq_true]
    intro hmatches
    have hmoved : isMoved importLine Python.profile.style lines i = true := by
      refine isMoved_of_startsStatement hle hline ?_
      rw [startsStatement_importLine, hmatches]
    rw [hmoved] at hstays
    cases hstays
  · apply order_filterMap_order
    intro line hstarts
    rw [startsStatement_importLine] at hstarts
    exact endsPreamble_of_importLine hstarts

end Imports

end Relocation

end LineLint
