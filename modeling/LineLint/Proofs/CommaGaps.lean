import LineLint.Proofs.LineReading

/-!
# Gaps behind commas

Comma spacing puts a space behind some of the commas of a line and changes nothing else. Which commas
these are is told by the code of the line, place by place.
-/

namespace LineLint

open Cell (codes)

namespace CommaSpacing

section Gaps

/-- The space that is missing behind a cell; `previous` is the masked character before it. -/
def gapBehind (previous : Option Char) (cell : Cell) (after : List Cell) : List Cell :=
  if cell.code == ',' && !cell.isProtected && (after.head?.map (·.masked)).any (needsSpace previous)
  then [Cell.space] else []

def spaced (previous : Option Char) (after : List Cell) : List Cell → List Cell
  | [] => []
  | cell :: rest =>
      cell :: (gapBehind previous cell (rest ++ after) ++ spaced (some cell.masked) after rest)

variable {previous : Option Char} {cell : Cell} {after cells : List Cell}

theorem gapBehind_nil : gapBehind previous cell [] = [] := by
  simp [gapBehind]

theorem gapBehind_cases (previous : Option Char) (cell : Cell) (after : List Cell) :
    gapBehind previous cell after = [] ∨
      gapBehind previous cell after = [Cell.space] ∧ cell.code = ',' ∧ cell.isProtected = false := by
  unfold gapBehind
  split_ifs with htight
  · simp only [Bool.and_eq_true, beq_iff_eq, Bool.not_eq_true'] at htight
    exact Or.inr ⟨rfl, htight.1⟩
  · exact Or.inl rfl

theorem gapBehind_of_calm (h : cell.code = ',' → cell.isProtected = true) :
    gapBehind previous cell after = [] := by
  refine (gapBehind_cases previous cell after).resolve_right ?_
  rintro ⟨-, hcomma, hnot⟩
  rw [h hcomma] at hnot
  cases hnot

theorem insertSpaces_eq (previous : Option Char) (cells : List Cell) :
    insertSpaces previous cells = codes (spaced previous [] cells) := by
  fun_induction insertSpaces previous cells with
  | case1 => rfl
  | case2 previous cell => simp [spaced, gapBehind_nil, codes]
  | case3 previous cell next rest tail htight ih =>
      have hgap : gapBehind previous cell (next :: rest ++ []) = [Cell.space] := if_pos htight
      rw [spaced, hgap, Cell.codes_cons, Cell.codes_append, ← ih]
      rfl
  | case4 previous cell next rest tail hcalm ih =>
      have hgap : gapBehind previous cell (next :: rest ++ []) = [] := if_neg hcalm
      rw [spaced, hgap, Cell.codes_cons, List.nil_append, ← ih]

def lastMasked (previous : Option Char) (cells : List Cell) : Option Char :=
  (cells.getLast?.map (·.masked)).or previous

theorem lastMasked_cons (previous : Option Char) (cell : Cell) (cells : List Cell) :
    lastMasked previous (cell :: cells) = lastMasked (some cell.masked) cells := by
  rw [lastMasked, lastMasked, List.getLast?_cons]
  cases cells.getLast? <;> rfl

theorem lastMasked_concat (previous : Option Char) (cells : List Cell) (cell : Cell) :
    lastMasked previous (cells ++ [cell]) = some cell.masked := by
  rw [lastMasked, List.getLast?_concat]
  rfl

theorem spaced_append (previous : Option Char) (after front back : List Cell) :
    spaced previous after (front ++ back) =
      spaced previous (back ++ after) front ++ spaced (lastMasked previous front) after back := by
  induction front generalizing previous with
  | nil => rfl
  | cons cell front ih =>
      rw [List.cons_append, spaced, spaced, ih, lastMasked_cons, List.append_assoc front]
      simp only [List.cons_append, List.append_assoc]

theorem spaced_of_calm (h : ∀ c ∈ cells, c.code = ',' → c.isProtected = true) :
    spaced previous after cells = cells := by
  induction cells generalizing previous with
  | nil => rfl
  | cons cell cells ih =>
      obtain ⟨hcell, hcells⟩ := List.forall_mem_cons.mp h
      rw [spaced, gapBehind_of_calm hcell, ih hcells, List.nil_append]

/-- Of the cells behind, only the next character counts. -/
theorem spaced_of_head {after' : List Cell}
    (h : after.head?.map (·.masked) = after'.head?.map (·.masked)) :
    spaced previous after cells = spaced previous after' cells := by
  induction cells generalizing previous with
  | nil => rfl
  | cons cell cells ih =>
      have hhead : (cells ++ after).head?.map (·.masked) =
          (cells ++ after').head?.map (·.masked) := by
        rw [List.head?_append, List.head?_append, Option.map_or, Option.map_or, h]
      rw [spaced, spaced, gapBehind, gapBehind, hhead, ih]

theorem solid_codes_spaced (previous : Option Char) (after cells : List Cell) :
    Text.solid (codes (spaced previous after cells)) = Text.solid (codes cells) := by
  induction cells generalizing previous with
  | nil => rfl
  | cons cell cells ih =>
      rw [spaced, Cell.codes_cons, Cell.codes_cons, Cell.codes_append]
      apply Text.solid_cons_congr
      rcases gapBehind_cases previous cell (cells ++ after) with hgap | ⟨hgap, -⟩
      · rw [hgap]
        exact ih _
      · rw [hgap]
        exact ih _

/-- Spacing puts nothing but spaces at the end of a text. -/
theorem any_lastMasked_spaced {q : Char → Bool} (hspace : q ' ' = false)
    (h : (lastMasked previous cells).any q = false) :
    (lastMasked previous (spaced previous after cells)).any q = false := by
  rcases List.eq_nil_or_concat cells with rfl | ⟨front, cell, rfl⟩
  · exact h
  · rw [List.concat_eq_append, lastMasked_concat] at h
    rw [List.concat_eq_append, spaced_append, spaced, spaced, List.append_nil]
    rcases gapBehind_cases (lastMasked previous front) cell after with hgap | ⟨hgap, -⟩
    · rw [List.nil_append, hgap, lastMasked_concat]
      exact h
    · rw [List.nil_append, hgap, List.append_cons, lastMasked_concat]
      exact hspace

end Gaps

section Places

variable {r : CommaSpacing} {line code : Text} {before after : List Cell} {cell : Cell} {i : Nat}

def codeCells (r : CommaSpacing) (line : Text) : List Cell :=
  Cell.ofCode r.style r.generics (fun _ => none) (r.style.splitComment line).1

/-- A comma that calls for a space: it stands in no literal and in no generic span, and what follows
it in the code is no blank and no closing bracket, and no digit if one stands before the comma. -/
structure IsTight (r : CommaSpacing) (code : Text) (i : Nat) : Prop where
  comma : code[i]? = some ','
  outside : ∀ s ∈ ProtectedSpan.spans r.style r.generics code, ¬(s.start ≤ i ∧ i < s.stop)
  next : ∃ next ∈ code[i + 1]?, isBlank next = false ∧ next ∉ [')', ']', '}'] ∧
    ¬((code.take i).getLast?.any isDigit = true ∧ isDigit next = true)

theorem needsSpace_iff {previous : Option Char} {next : Char} :
    needsSpace previous next = true ↔ isBlank next = false ∧ next ∉ [')', ']', '}'] ∧
      ¬(previous.any isDigit = true ∧ isDigit next = true) := by
  simp [needsSpace, and_assoc, imp_iff_not_or]

def callsForSpace (r : CommaSpacing) (code : Text) (i : Nat) : Bool :=
  code[i]? == some ',' &&
    !ProtectedSpan.isProtected (ProtectedSpan.spans r.style r.generics code) i &&
    code[i + 1]?.any (needsSpace (code.take i).getLast?)

theorem callsForSpace_iff (r : CommaSpacing) (code : Text) (i : Nat) :
    r.callsForSpace code i = true ↔ r.IsTight code i := by
  have houtside : ProtectedSpan.isProtected (ProtectedSpan.spans r.style r.generics code) i = false ↔
      ∀ s ∈ ProtectedSpan.spans r.style r.generics code, ¬(s.start ≤ i ∧ i < s.stop) := by
    simp [ProtectedSpan.isProtected, Span.holds]
  rw [callsForSpace, Bool.and_eq_true, Bool.and_eq_true, Bool.not_eq_true', houtside, beq_iff_eq,
    Option.any_eq_true]
  simp only [needsSpace_iff]
  exact ⟨fun h => ⟨h.1.1, h.1.2, h.2⟩, fun h => ⟨⟨h.comma, h.outside⟩, h.next⟩⟩

instance (r : CommaSpacing) (code : Text) (i : Nat) : Decidable (r.IsTight code i) :=
  decidable_of_iff _ (r.callsForSpace_iff code i)

/-- Beside a character that is not protected, the mask shows the line. -/
theorem masked_beside (hcells : r.codeCells line = before ++ cell :: after)
    (hnot : cell.isProtected = false) :
    lastMasked none before =
        ((r.style.splitComment line).1.take before.length).getLast? ∧
      after.head?.map (·.masked) = (r.style.splitComment line).1[before.length + 1]? := by
  have hcell := Cell.isAt_of_split hcells
  have hcodes : codes (r.codeCells line) = (r.style.splitComment line).1 := Cell.codes_ofCode
  have htake : (r.style.splitComment line).1.take before.length = codes before := by
    have hlength : (codes before).length = before.length := List.length_map _
    rw [← hcodes, hcells, Cell.codes_append, List.take_left' hlength]
  rw [htake]
  constructor
  · rcases List.eq_nil_or_concat before with rfl | ⟨front, last, rfl⟩
    · rfl
    · have hlast : r.codeCells line = front ++ last :: (cell :: after) := by
        rw [hcells]
        simp
      rw [List.length_concat] at hcell
      have hmask := (Cell.isAt_of_split hlast).masked_eq_code_of_next hcell hnot
      rw [List.concat_eq_append, lastMasked_concat, hmask]
      simp [codes]
  · cases after with
    | nil =>
        rw [← hcodes, hcells]
        simp [codes]
    | cons next after =>
        have hnext : r.codeCells line = (before ++ [cell]) ++ next :: after := by
          rw [hcells]
          simp
        have hat := Cell.isAt_of_split hnext
        rw [List.length_append, List.length_singleton] at hat
        rw [hat.code_eq, ← hcell.masked_eq_code_of_previous hat hnot]
        rfl

/-- A space is put behind a character exactly if that is a comma which calls for one. -/
theorem gapBehind_eq (hcells : r.codeCells line = before ++ cell :: after) :
    gapBehind (lastMasked none before) cell after =
      if r.IsTight (r.style.splitComment line).1 before.length then [Cell.space] else [] := by
  have hat := Cell.isAt_of_split hcells
  have hiff : (cell.code == ',' && !cell.isProtected && (after.head?.map (·.masked)).any
      (needsSpace (lastMasked none before))) = true ↔
        r.IsTight (r.style.splitComment line).1 before.length := by
    have houtside : cell.isProtected = false ↔
        ∀ s ∈ ProtectedSpan.spans r.style r.generics (r.style.splitComment line).1,
          ¬(s.start ≤ before.length ∧ before.length < s.stop) := by
      rw [← Bool.not_eq_true, hat.isProtected_iff]
      push Not
      rfl
    simp only [Bool.and_eq_true, beq_iff_eq, Bool.not_eq_true', and_assoc]
    constructor
    · rintro ⟨hcomma, hnot, hany⟩
      obtain ⟨next, hnext, hneeds⟩ := (Option.any_eq_true ..).mp hany
      obtain ⟨hprevious, hbehind⟩ := masked_beside hcells hnot
      rw [hbehind] at hnext
      rw [hprevious, needsSpace_iff] at hneeds
      exact ⟨hcomma ▸ hat.code_eq, houtside.mp hnot, next, hnext, hneeds⟩
    · rintro ⟨hcomma, hspans, next, hnext, hneeds⟩
      have hnot := houtside.mpr hspans
      obtain ⟨hprevious, hbehind⟩ := masked_beside hcells hnot
      rw [hat.code_eq] at hcomma
      rw [← hprevious, ← needsSpace_iff] at hneeds
      rw [← hbehind] at hnext
      exact ⟨Option.some.inj hcomma, hnot, (Option.any_eq_true ..).mpr ⟨next, hnext, hneeds⟩⟩
  simp only [gapBehind, hiff]

theorem codes_spaced (hcells : r.codeCells line = before ++ after) :
    codes (spaced (lastMasked none before) [] after) =
      ((codes after).mapIdx fun i c =>
        if r.IsTight (r.style.splitComment line).1 (before.length + i) then [c, ' ']
        else [c]).flatten := by
  induction after generalizing before with
  | nil => rfl
  | cons cell after ih =>
      have hrest := ih (hcells.trans (List.append_cons before cell after))
      rw [lastMasked_concat, List.length_append, List.length_singleton] at hrest
      rw [spaced, List.append_nil, gapBehind_eq hcells, Cell.codes_cons, Cell.codes_append, hrest,
        Cell.codes_cons, List.mapIdx_cons, List.flatten_cons]
      simp only [Nat.add_zero, Nat.add_assoc, Nat.add_comm 1]
      split_ifs
      · rfl
      · rfl

/-- The new line: the code with a space behind each comma that calls for one, and the comment. -/
theorem normalize_eq (r : CommaSpacing) (line : Text) :
    r.normalize line = codes (spaced none [] (r.codeCells line)) ++ (r.style.splitComment line).2 :=
  congrArg (· ++ (r.style.splitComment line).2) (insertSpaces_eq none (r.codeCells line))

theorem normalize_eq_flatten (r : CommaSpacing) (line : Text) :
    r.normalize line =
      ((r.style.splitComment line).1.mapIdx fun i c =>
        if r.IsTight (r.style.splitComment line).1 i then [c, ' '] else [c]).flatten ++
        (r.style.splitComment line).2 := by
  have hcodes : codes (r.codeCells line) = (r.style.splitComment line).1 := Cell.codes_ofCode
  have hspaced := codes_spaced (List.nil_append (r.codeCells line)).symm
  simp only [List.length_nil, Nat.zero_add, hcodes] at hspaced
  rw [normalize_eq, ← hspaced]
  rfl

end Places

end CommaSpacing

end LineLint
