import LineLint.DuplicateLines
import LineLint.Proofs.Computation
import Mathlib.Data.List.TakeWhile

/-!
# Maximal runs

Equal entries that follow each other make up a run, which is maximal if the entries before and
behind it are others. The maximal runs of lines that are equal up to outer blanks are found one
after the other, and those that are long enough and neither blank nor comments are reported.
-/

namespace LineLint

section Runs

variable {α : Type} {x : α} {rest : List α} {k start length : Nat}

/-- Consecutive entries that are equal, with another entry or none on either side. -/
structure IsMaximalRun (entries : List α) (start length : Nat) : Prop where
  pos : 0 < length
  within : start + length ≤ entries.length
  same : ∀ i < length, entries[start + i]? = entries[start]?
  before : ∀ i, start = i + 1 → entries[i]? ≠ entries[start]?
  behind : entries[start + length]? ≠ entries[start]?

theorem getElem?_replicate_append_of_lt (rest : List α) {i : Nat} (hi : i < k) :
    (List.replicate k x ++ rest)[i]? = some x := by
  rw [List.getElem?_append_left (by simpa using hi), List.getElem?_replicate, if_pos hi]

theorem getElem?_replicate_append_add (k i : Nat) (x : α) (rest : List α) :
    (List.replicate k x ++ rest)[k + i]? = rest[i]? := by
  rw [List.getElem?_append_right (by simp), List.length_replicate, Nat.add_sub_cancel_left]

theorem getElem?_replicate_append_length (k : Nat) (x : α) (rest : List α) :
    (List.replicate k x ++ rest)[k]? = rest.head? := by
  rw [List.head?_eq_getElem?]
  exact getElem?_replicate_append_add k 0 x rest

/-- No maximal run starts within the first run but the run itself. -/
theorem isMaximalRun_replicate_append_of_lt_iff (hrest : rest.head? ≠ some x)
    (hstart : start < k + 1) :
    IsMaximalRun (List.replicate (k + 1) x ++ rest) start length ↔ start = 0 ∧ length = k + 1 := by
  have hfirst := getElem?_replicate_append_of_lt (x := x) rest hstart
  have hnext := getElem?_replicate_append_length (k + 1) x rest
  constructor
  · intro h
    obtain rfl : start = 0 := by
      by_contra hne
      obtain ⟨i, rfl⟩ := Nat.exists_eq_succ_of_ne_zero hne
      refine h.before i rfl ?_
      rw [hfirst, getElem?_replicate_append_of_lt rest (by omega)]
    have hsame := h.same
    have hbehind := h.behind
    simp only [Nat.zero_add, hfirst] at hsame hbehind
    have hlong : ¬length < k + 1 := fun hlt =>
      hbehind (getElem?_replicate_append_of_lt rest hlt)
    have hshort : ¬k + 1 < length := fun hlt => hrest (hnext ▸ hsame (k + 1) hlt)
    omega
  · rintro ⟨rfl, rfl⟩
    refine ⟨Nat.succ_pos k, by simp, fun i hi => ?_, fun i hi => ?_, ?_⟩
    · rw [Nat.zero_add, hfirst, getElem?_replicate_append_of_lt rest hi]
    · exact absurd hi.symm (Nat.succ_ne_zero i)
    · rwa [Nat.zero_add, hfirst, hnext]

theorem isMaximalRun_replicate_append_add_iff (hrest : rest.head? ≠ some x) (s : Nat) :
    IsMaximalRun (List.replicate (k + 1) x ++ rest) (k + 1 + s) length ↔
      IsMaximalRun rest s length := by
  constructor
  · intro h
    refine ⟨h.pos, ?_, fun i hi => ?_, fun i hi => ?_, ?_⟩
    · have hwithin := h.within
      rw [List.length_append, List.length_replicate] at hwithin
      omega
    · have hsame := h.same i hi
      rwa [Nat.add_assoc, getElem?_replicate_append_add, getElem?_replicate_append_add] at hsame
    · subst hi
      have hbefore := h.before (k + 1 + i) rfl
      rwa [getElem?_replicate_append_add, getElem?_replicate_append_add] at hbefore
    · have hbehind := h.behind
      rwa [Nat.add_assoc, getElem?_replicate_append_add, getElem?_replicate_append_add] at hbehind
  · intro h
    refine ⟨h.pos, ?_, fun i hi => ?_, fun i hi => ?_, ?_⟩
    · have hwithin := h.within
      rw [List.length_append, List.length_replicate]
      omega
    · rw [Nat.add_assoc, getElem?_replicate_append_add, getElem?_replicate_append_add, h.same i hi]
    · rw [getElem?_replicate_append_add]
      cases s with
      | zero =>
          obtain rfl : i = k := by omega
          rw [getElem?_replicate_append_of_lt rest (Nat.lt_succ_self i), ← List.head?_eq_getElem?]
          exact hrest.symm
      | succ s =>
          obtain rfl : i = k + 1 + s := by omega
          rw [getElem?_replicate_append_add]
          exact h.before s rfl
    · rw [Nat.add_assoc, getElem?_replicate_append_add, getElem?_replicate_append_add]
      exact h.behind

/-- The first run of some entries is maximal, and so are the maximal runs behind it. -/
theorem isMaximalRun_replicate_append_iff (hrest : rest.head? ≠ some x) :
    IsMaximalRun (List.replicate (k + 1) x ++ rest) start length ↔
      (start = 0 ∧ length = k + 1) ∨ ∃ s, start = k + 1 + s ∧ IsMaximalRun rest s length := by
  by_cases hstart : start < k + 1
  · rw [isMaximalRun_replicate_append_of_lt_iff hrest hstart]
    refine (or_iff_left ?_).symm
    rintro ⟨s, rfl, -⟩
    omega
  · obtain ⟨s, rfl⟩ := Nat.exists_eq_add_of_le (Nat.le_of_not_lt hstart)
    rw [isMaximalRun_replicate_append_add_iff hrest]
    constructor
    · exact fun h => Or.inr ⟨s, rfl, h⟩
    · rintro (⟨hzero, -⟩ | ⟨s', hs, h⟩)
      · omega
      · rwa [Nat.add_left_cancel hs]

theorem not_isMaximalRun_nil : ¬IsMaximalRun ([] : List α) start length := fun h => by
  have hpos := h.pos
  have hwithin := h.within
  rw [List.length_nil] at hwithin
  omega

end Runs

namespace DuplicateLines

variable (r : DuplicateLines) {lines : List Text} {start length : Nat}

def IsReported (lines : List Text) (start length : Nat) : Prop :=
  IsMaximalRun (lines.map Text.trim) start length ∧ r.minRun ≤ length ∧
    ∃ line, lines[start]? = some line ∧ line.trim ≠ [] ∧ r.style.isCommentLine line.trim = false

def runReport (start length : Nat) (line : Text) : Diagnostic where
  code := "LINT_QUALITY_DUPLICATE_LINES"
  message := "Found ".toList ++ Text.ofInt length ++ " duplicate lines of code".toList
  line := start + 1
  category := "Code Quality"
  suggestion := "Extract repeated code into a function or loop".toList
  snippet := line

theorem counts_iff {stripped : Text} : r.counts stripped length = true ↔
    r.minRun ≤ length ∧ stripped ≠ [] ∧ r.style.isCommentLine stripped = false := by
  simp [counts, and_assoc]

theorem map_trim_cons (line : Text) (rest : List Text) :
    (line :: rest).map Text.trim = List.replicate (runLength line.trim rest + 1) line.trim ++
      (rest.drop (runLength line.trim rest)).map Text.trim := by
  let same := fun l : Text => l.trim == line.trim
  have hrun : (rest.takeWhile same).map Text.trim =
      List.replicate (runLength line.trim rest) line.trim := by
    refine List.eq_replicate_iff.mpr ⟨by rw [List.length_map]; rfl, fun t ht => ?_⟩
    obtain ⟨l, hl, rfl⟩ := List.mem_map.mp ht
    exact eq_of_beq (List.mem_takeWhile_imp (p := same) hl)
  have hsplit : rest.takeWhile same ++ rest.drop (runLength line.trim rest) = rest := by
    rw [List.prefix_iff_eq_take.mp (List.takeWhile_prefix (l := rest) same)]
    exact List.take_append_drop _ rest
  calc (line :: rest).map Text.trim
      = line.trim ::
          (rest.takeWhile same ++ rest.drop (runLength line.trim rest)).map Text.trim := by
        rw [hsplit, List.map_cons]
    _ = _ := by rw [List.map_append, hrun, List.replicate_succ, List.cons_append]

theorem head?_map_trim_drop_runLength (stripped : Text) (rest : List Text) :
    ((rest.drop (runLength stripped rest)).map Text.trim).head? ≠ some stripped := by
  induction rest with
  | nil => simp
  | cons line rest ih =>
      by_cases hline : line.trim = stripped
      · have hlength : runLength stripped (line :: rest) = runLength stripped rest + 1 := by
          simp [runLength, hline]
        rwa [hlength, List.drop_succ_cons]
      · have hlength : runLength stripped (line :: rest) = 0 := by
          simp [runLength, hline]
        simpa [hlength] using hline

/-- What is reported of some lines is the first run, if it counts, and what is reported of the lines
behind it. -/
theorem isReported_cons_iff (line : Text) (rest : List Text) :
    r.IsReported (line :: rest) start length ↔
      (start = 0 ∧ length = runLength line.trim rest + 1 ∧ r.counts line.trim length) ∨
        ∃ s, start = runLength line.trim rest + 1 + s ∧
          r.IsReported (rest.drop (runLength line.trim rest)) s length := by
  have hrest := head?_map_trim_drop_runLength line.trim rest
  unfold IsReported
  rw [map_trim_cons, isMaximalRun_replicate_append_iff hrest]
  constructor
  · rintro ⟨⟨rfl, rfl⟩ | ⟨s, rfl, hrun⟩, hmin, l, hl, hcounts⟩
    · obtain rfl : line = l := by simpa using hl
      exact Or.inl ⟨rfl, rfl, r.counts_iff.mpr ⟨hmin, hcounts⟩⟩
    · refine Or.inr ⟨s, rfl, hrun, hmin, l, ?_, hcounts⟩
      rw [List.getElem?_drop, ← hl, Nat.add_right_comm, List.getElem?_cons_succ]
  · rintro (⟨rfl, rfl, hcounts⟩ | ⟨s, rfl, hrun, hmin, l, hl, hcounts⟩)
    · obtain ⟨hmin, hcounts⟩ := r.counts_iff.mp hcounts
      exact ⟨Or.inl ⟨rfl, rfl⟩, hmin, line, rfl, hcounts⟩
    · refine ⟨Or.inr ⟨s, rfl, hrun⟩, hmin, l, ?_, hcounts⟩
      rw [Nat.add_right_comm, List.getElem?_cons_succ, ← List.getElem?_drop, hl]

theorem not_isReported_nil : ¬r.IsReported [] start length := fun h => not_isMaximalRun_nil h.1

/-- The runs are found from left to right, and none overlaps with another. -/
theorem exists_runs_checkFrom (index : Nat) (lines : List Text) : ∃ runs : List (Nat × Nat),
    r.checkFrom index lines = runs.map (fun run =>
      { index := index + run.1, fields := [("count", Text.ofInt run.2)] }) ∧
    (∀ start length, (start, length) ∈ runs ↔ r.IsReported lines start length) ∧
    runs.Pairwise fun first second => first.1 + first.2 ≤ second.1 := by
  fun_induction checkFrom r index lines with
  | case1 index =>
      exact ⟨[], rfl, fun start length => by simp [r.not_isReported_nil], List.Pairwise.nil⟩
  | case2 index line rest further length found ih =>
      obtain ⟨runs, hruns, hmem, hordered⟩ := ih
      let first : List (Nat × Nat) := if r.counts line.trim length then [(0, length)] else []
      let later := runs.map fun run => (length + run.1, run.2)
      have hfirst (s n : Nat) : (s, n) ∈ first ↔ s = 0 ∧ n = length ∧ r.counts line.trim n := by
        grind
      have hlater (s n : Nat) : (s, n) ∈ later ↔
          ∃ t, s = length + t ∧ r.IsReported (rest.drop further) t n := by
        simp only [later, List.mem_map, Prod.mk.injEq, Prod.exists, ← hmem]
        grind
      refine ⟨first ++ later, ?_, fun s n => ?_, List.pairwise_append.mpr ⟨?_, ?_, ?_⟩⟩
      · rw [hruns, List.map_append, List.map_map]
        congr 1
        · grind
        · refine List.map_congr_left fun run _ => ?_
          simp [Nat.add_assoc]
      · rw [List.mem_append, hfirst, hlater, isReported_cons_iff]
      · dsimp only [first]
        split <;> simp
      · refine List.pairwise_map.mpr (hordered.imp fun {first second} hle => ?_)
        exact (Nat.add_assoc length first.1 first.2).trans_le (Nat.add_le_add_left hle length)
      · grind

theorem report_run {start : Nat} {line : Text} (length : Nat) (hline : lines[start]? = some line) :
    Spec.duplicateLines.report lines
        { index := start, fields := [("count", Text.ofInt length)] } =
      .ok (runReport start length line) := by
  simp only [Spec.report, hline]
  rfl

/-- Duplicate lines are reported once for each maximal run of them, in order, and nothing else is.
-/
theorem run_rule_eq_maximalRuns (lines : List Text) : ∃ runs : List (Nat × Nat),
    r.rule.run lines =
      .ok (runs.map fun run => runReport run.1 run.2 (lines.getD run.1 [])) ∧
    (∀ start length, (start, length) ∈ runs ↔ r.IsReported lines start length) ∧
    runs.Pairwise fun first second => first.1 + first.2 ≤ second.1 := by
  obtain ⟨runs, hcheck, hmem, hordered⟩ := r.exists_runs_checkFrom 0 lines
  refine ⟨runs, ?_, hmem, hordered⟩
  have hrun : r.rule.run lines =
      (r.checkFrom 0 lines).mapM (Spec.duplicateLines.report lines) := rfl
  rw [hrun, hcheck, List.mapM_map]
  refine mapM_eq_ok fun run hin => ?_
  obtain ⟨-, -, line, hline, -, -⟩ := (hmem run.1 run.2).mp hin
  rw [Function.comp_apply, Nat.zero_add, report_run run.2 hline, List.getD_eq_getElem?_getD, hline]
  rfl

end DuplicateLines

end LineLint
