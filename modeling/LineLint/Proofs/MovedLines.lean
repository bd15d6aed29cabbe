import LineLint.Proofs.RelocationOrder
import Mathlib.Algebra.Ring.Int.Defs

/-!
# The lines that relocation moves

A line moves exactly if a statement that starts on it or above it has not closed its parentheses
before it: the balance of each run of lines from the start of the statement on is positive. The
order is the preamble, then the lines that move, then those that do not.
-/

namespace LineLint

namespace Relocation

section Balance

variable (style : LiteralStyle)

def openParens (lines : List Text) : Int := (lines.map (parenBalance style)).sum

def StaysOpenFrom (balance : Int) (lines : List Text) : Prop :=
  ∀ n < lines.length, 0 < balance + openParens style (lines.take (n + 1))

/-- Parentheses that the lines open are still open behind each of them. -/
def StaysOpen (lines : List Text) : Prop := StaysOpenFrom style 0 lines

instance (balance : Int) (lines : List Text) : Decidable (StaysOpenFrom style balance lines) :=
  inferInstanceAs (Decidable (∀ n < lines.length,
    0 < balance + openParens style (lines.take (n + 1))))

instance (lines : List Text) : Decidable (StaysOpen style lines) :=
  inferInstanceAs (Decidable (StaysOpenFrom style 0 lines))

variable {style} {balance larger : Int} {line : Text} {lines : List Text}

@[simp] theorem openParens_nil : openParens style [] = 0 := rfl

@[simp] theorem openParens_cons :
    openParens style (line :: lines) = parenBalance style line + openParens style lines := by
  simp [openParens]

theorem staysOpenFrom_nil : StaysOpenFrom style balance [] := by
  intro n hn
  simp at hn

theorem staysOpenFrom_cons_iff :
    StaysOpenFrom style balance (line :: lines) ↔
      0 < balance + parenBalance style line ∧
        StaysOpenFrom style (balance + parenBalance style line) lines := by
  constructor
  · intro h
    constructor
    · simpa using h 0 (by simp)
    · intro n hn
      have hnext := h (n + 1) (by simpa using hn)
      rw [List.take_succ_cons, openParens_cons] at hnext
      omega
  · rintro ⟨hfirst, hrest⟩ n hn
    cases n with
    | zero => simpa using hfirst
    | succ n =>
        have hnext := hrest n (by simpa using hn)
        rw [List.take_succ_cons, openParens_cons]
        omega

theorem StaysOpenFrom.mono (h : StaysOpenFrom style balance lines) (hle : balance ≤ larger) :
    StaysOpenFrom style larger lines := by
  intro n hn
  have := h n hn
  omega

end Balance

section Moved

variable {pattern : Pattern} {style : LiteralStyle}

theorem movedFrom_cons_of_pos {balance : Int} (h : 0 < balance) (line : Text)
    (rest : List Text) :
    movedFrom pattern style balance (line :: rest) =
      true :: movedFrom pattern style (balance + parenBalance style line) rest := by
  rw [movedFrom, if_pos h]

theorem movedFrom_cons_of_starts {balance : Int} (h : ¬0 < balance) {line : Text}
    (hstarts : startsStatement pattern line = true) (rest : List Text) :
    movedFrom pattern style balance (line :: rest) =
      true :: movedFrom pattern style (parenBalance style line) rest := by
  rw [movedFrom, if_neg h, if_pos hstarts]

theorem movedFrom_cons_of_not_starts {balance : Int} (h : ¬0 < balance) {line : Text}
    (hstarts : startsStatement pattern line = false) (rest : List Text) :
    movedFrom pattern style balance (line :: rest) =
      false :: movedFrom pattern style 0 rest := by
  rw [movedFrom, if_neg h, if_neg (by simp [hstarts])]

theorem movedFrom_of_not_pos {balance : Int} (h : ¬0 < balance) (lines : List Text) :
    movedFrom pattern style balance lines = movedFrom pattern style 0 lines := by
  cases lines with
  | nil => rfl
  | cons line rest =>
      cases hstarts : startsStatement pattern line with
      | true =>
          rw [movedFrom_cons_of_starts h hstarts, movedFrom_cons_of_starts (by omega) hstarts]
      | false =>
          rw [movedFrom_cons_of_not_starts h hstarts,
            movedFrom_cons_of_not_starts (by omega) hstarts]

variable (pattern style)

/-- A statement starts on the line at `first`, and its parentheses stay open up to line `i`. -/
def ReachesFrom (lines : List Text) (first i : Nat) : Prop :=
  ∃ line, lines[first]? = some line ∧ startsStatement pattern line = true ∧
    StaysOpen style ((lines.drop first).take (i - first))

variable {pattern style}

theorem reachesFrom_self {lines : List Text} {line : Text} {i : Nat}
    (hline : lines[i]? = some line) (hstarts : startsStatement pattern line = true) :
    ReachesFrom pattern style lines i i := by
  refine ⟨line, hline, hstarts, ?_⟩
  rw [Nat.sub_self, List.take_zero]
  exact staysOpenFrom_nil

theorem reachesFrom_cons_zero {line : Text} {rest : List Text} {i : Nat} :
    ReachesFrom pattern style (line :: rest) 0 (i + 1) ↔
      startsStatement pattern line = true ∧ 0 < parenBalance style line ∧
        StaysOpenFrom style (parenBalance style line) (rest.take i) := by
  have hopen : StaysOpen style (line :: rest.take i) ↔
      0 < parenBalance style line ∧
        StaysOpenFrom style (parenBalance style line) (rest.take i) := by
    rw [StaysOpen, staysOpenFrom_cons_iff, Int.zero_add]
  rw [← hopen]
  constructor
  · rintro ⟨first, hfirst, hstarts, hstays⟩
    obtain rfl : line = first := by simpa using hfirst
    exact ⟨hstarts, hstays⟩
  · rintro ⟨hstarts, hstays⟩
    exact ⟨line, rfl, hstarts, hstays⟩

theorem reachesFrom_cons_succ {line : Text} {rest : List Text} {first i : Nat} :
    ReachesFrom pattern style (line :: rest) (first + 1) (i + 1) ↔
      ReachesFrom pattern style rest first i := by
  simp [ReachesFrom]

/-- Of the statements that may reach a line, the one on the first line is split off. -/
theorem exists_reachesFrom_cons_iff {line : Text} {rest : List Text} {i : Nat} :
    (∃ first ≤ i + 1, ReachesFrom pattern style (line :: rest) first (i + 1)) ↔
      (startsStatement pattern line = true ∧ 0 < parenBalance style line ∧
        StaysOpenFrom style (parenBalance style line) (rest.take i)) ∨
      ∃ first ≤ i, ReachesFrom pattern style rest first i := by
  constructor
  · rintro ⟨first, hle, hreaches⟩
    cases first with
    | zero => exact Or.inl (reachesFrom_cons_zero.mp hreaches)
    | succ first => exact Or.inr ⟨first, by omega, reachesFrom_cons_succ.mp hreaches⟩
  · rintro (hreaches | ⟨first, hle, hreaches⟩)
    · exact ⟨0, by omega, reachesFrom_cons_zero.mpr hreaches⟩
    · exact ⟨first + 1, by omega, reachesFrom_cons_succ.mpr hreaches⟩

/-- With some parentheses open, a line is marked if they stay open up to it, or if a statement from
here on reaches it. -/
theorem getElem?_movedFrom_iff (balance : Int) (lines : List Text) (i : Nat) :
    (movedFrom pattern style balance lines)[i]? = some true ↔
      i < lines.length ∧ ((0 < balance ∧ StaysOpenFrom style balance (lines.take i)) ∨
        ∃ first ≤ i, ReachesFrom pattern style lines first i) := by
  induction lines generalizing balance i with
  | nil => simp [movedFrom]
  | cons line rest ih =>
      cases i with
      | zero =>
          have hfirst : (∃ first ≤ 0, ReachesFrom pattern style (line :: rest) first 0) ↔
              startsStatement pattern line = true := by
            simp [ReachesFrom, StaysOpen, staysOpenFrom_nil]
          rw [hfirst, movedFrom]
          split_ifs with hpos hstarts
          · simp [hpos, staysOpenFrom_nil]
          · simp [hstarts]
          · simp [hpos, hstarts]
      | succ i =>
          rw [exists_reachesFrom_cons_iff, List.take_succ_cons, staysOpenFrom_cons_iff,
            List.length_cons, Nat.succ_lt_succ_iff]
          by_cases hpos : 0 < balance
          · rw [movedFrom_cons_of_pos hpos, List.getElem?_cons_succ, ih]
            refine and_congr_right fun _ => ?_
            constructor
            · rintro (hopen | hlater)
              · exact Or.inl ⟨hpos, hopen⟩
              · exact Or.inr (Or.inr hlater)
            · rintro (⟨-, hopen⟩ | ⟨-, hopen, hstays⟩ | hlater)
              · exact Or.inl hopen
              · -- What the first line leaves open is still open with more before it.
                exact Or.inl ⟨by omega, hstays.mono (by omega)⟩
              · exact Or.inr hlater
          · cases hstarts : startsStatement pattern line with
            | true =>
                rw [movedFrom_cons_of_starts hpos hstarts, List.getElem?_cons_succ, ih]
                simp only [hpos, false_and, false_or, true_and]
            | false =>
                rw [movedFrom_cons_of_not_starts hpos hstarts, List.getElem?_cons_succ, ih]
                simp only [hpos, Int.lt_irrefl, Bool.false_eq_true, false_and, false_or]

end Moved

section Order

variable (pattern : Pattern) (style : LiteralStyle) (lines : List Text)

def preambleLength : Nat :=
  leadingPreamble (match style.lineComment with | some (c :: mark) => c :: mark | _ => ['#']) lines

def marks : List Bool :=
  movedFrom pattern style 0 (lines.drop (preambleLength style lines))

def isMoved (i : Nat) : Bool :=
  preambleLength style lines ≤ i &&
    (marks pattern style lines)[i - preambleLength style lines]? == some true

def below : List Nat :=
  List.range' (preambleLength style lines) (lines.length - preambleLength style lines)

theorem preambleLength_le : preambleLength style lines ≤ lines.length :=
  leadingPreamble_le _ lines

theorem length_marks :
    (marks pattern style lines).length = lines.length - preambleLength style lines := by
  rw [marks, length_movedFrom, List.length_drop]

theorem range_append_below :
    List.range (preambleLength style lines) ++ below style lines = List.range lines.length := by
  have happend := @List.range'_append 0 (preambleLength style lines)
    (lines.length - preambleLength style lines) 1
  rw [List.range_eq_range', List.range_eq_range', below]
  simpa [Nat.add_sub_cancel' (preambleLength_le style lines)] using happend

/-- The positions, counted from `first`, of those marks that are as wanted. -/
def positionsOf (wanted : Bool) (first : Nat) (marks : List Bool) : List Nat :=
  ((marks.zipIdx first).filter fun m => m.1 == wanted).map (·.2)

theorem order_eq_positionsOf :
    order pattern style lines =
      List.range (preambleLength style lines) ++
        (positionsOf true (preambleLength style lines) (marks pattern style lines) ++
          positionsOf false (preambleLength style lines) (marks pattern style lines)) := by
  rw [← List.append_assoc]
  simp only [positionsOf, beq_true, beq_false]
  rfl

theorem positionsOf_eq_filter (wanted : Bool) (first : Nat) (marks : List Bool) :
    positionsOf wanted first marks =
      (List.range' first marks.length).filter fun i => marks[i - first]? == some wanted := by
  induction marks generalizing first with
  | nil => rfl
  | cons mark marks ih =>
      have hrest : ((List.range' (first + 1) marks.length).filter fun i =>
          (mark :: marks)[i - first]? == some wanted) = positionsOf wanted (first + 1) marks := by
        rw [ih]
        refine List.filter_congr fun i hi => ?_
        obtain ⟨hle, -⟩ := List.mem_range'_1.mp hi
        rw [show i - first = i - (first + 1) + 1 by omega, List.getElem?_cons_succ]
      have hfirst : ((mark :: marks)[first - first]? == some wanted) = (mark == wanted) := by
        rw [Nat.sub_self, List.getElem?_cons_zero]
        rfl
      rw [List.length_cons, List.range'_succ, List.filter_cons, hrest, hfirst, positionsOf,
        List.zipIdx_cons, List.filter_cons, positionsOf]
      split_ifs <;> rfl

/-- The order is the preamble, the lines that move, and the lines that stay behind. -/
theorem order_eq_filter :
    order pattern style lines =
      List.range (preambleLength style lines) ++
        ((below style lines).filter (isMoved pattern style lines) ++
          (below style lines).filter fun i => !isMoved pattern style lines i) := by
  rw [order_eq_positionsOf, positionsOf_eq_filter, positionsOf_eq_filter, length_marks, ← below]
  congr 2
  · refine List.filter_congr fun i hi => ?_
    obtain ⟨hle, -⟩ := List.mem_range'_1.mp hi
    simp [isMoved, hle]
  · refine List.filter_congr fun i hi => ?_
    obtain ⟨hle, hlt⟩ := List.mem_range'_1.mp hi
    have hindex : i - preambleLength style lines < (marks pattern style lines).length := by
      rw [length_marks]
      omega
    rw [isMoved, List.getElem?_eq_getElem hindex]
    cases (marks pattern style lines)[i - preambleLength style lines] <;> simp [hle]

/-- A line moves exactly if a statement that starts on it or above it, below the preamble, reaches
it. -/
theorem isMoved_iff (i : Nat) :
    isMoved pattern style lines i = true ↔
      i < lines.length ∧ ∃ first, preambleLength style lines ≤ first ∧ first ≤ i ∧
        ReachesFrom pattern style lines first i := by
  rw [isMoved, Bool.and_eq_true, decide_eq_true_eq, beq_iff_eq, marks, getElem?_movedFrom_iff,
    List.length_drop]
  constructor
  · rintro ⟨hle, hlt, ⟨hpos, -⟩ | ⟨first, hfirst, line, hline, hstarts, hstays⟩⟩
    · omega
    · refine ⟨by omega, preambleLength style lines + first, by omega, by omega, line, ?_, hstarts,
        ?_⟩
      · rwa [List.getElem?_drop] at hline
      · rw [List.drop_drop] at hstays
        rwa [Nat.sub_add_eq]
  · rintro ⟨hlt, first, hle, hfirst, line, hline, hstarts, hstays⟩
    refine ⟨by omega, by omega, Or.inr ⟨first - preambleLength style lines, by omega, line, ?_,
      hstarts, ?_⟩⟩
    · rw [List.getElem?_drop, Nat.add_sub_cancel' hle]
      exact hline
    · rw [List.drop_drop, Nat.add_sub_cancel' hle,
        show i - preambleLength style lines - (first - preambleLength style lines) = i - first
          by omega]
      exact hstays

variable {pattern style lines}

theorem isMoved_of_startsStatement {line : Text} {i : Nat}
    (hbelow : preambleLength style lines ≤ i) (hline : lines[i]? = some line)
    (hstarts : startsStatement pattern line = true) : isMoved pattern style lines i = true := by
  obtain ⟨hlt, -⟩ := List.getElem?_eq_some_iff.mp hline
  exact (isMoved_iff pattern style lines i).mpr
    ⟨hlt, i, hbelow, le_rfl, reachesFrom_self hline hstarts⟩

end Order

end Relocation

end LineLint
