import LineLint.Proofs.RepeatedFix

/-!
# Blocks keep their structure

Several lines that take the place of one are indented by it. Lines without indentation come to stand
where the old line stood, and indented ones below it, so that what was nested stays nested: the
deeper of two indented lines is not put higher, and beyond the first unit all distances are kept.
-/

namespace LineLint

namespace Indentation

variable {unit nested : Int} {base line old new : Text} {lines block : List Text}

theorem exists_next_eq (hunit : 1 ≤ unit) (w : Nat) :
    ∃ deeper, next w unit = .ok deeper ∧ w < deeper := by
  have hbeyond : beyond w unit = .ok (Int.fmod w unit) := if_neg (by simp; omega)
  unfold next
  rw [hbeyond]
  by_cases haligned : Int.fmod w unit = 0
  · exact ⟨w + unit, if_pos (by simpa using haligned), by omega⟩
  · refine ⟨(Int.fdiv w unit + 1) * unit, if_neg (by simpa using haligned), ?_⟩
    rw [Int.fdiv_eq_ediv_of_nonneg _ (by omega)]
    exact Int.lt_ediv_add_one_mul_self _ (by omega)

/-- A line of a block, which is no blank one, with or without indentation of its own. -/
def IsFlush (line : Text) : Prop := line.allBlank = false ∧ line.indentation = []

def IsIndented (line : Text) : Prop := line.allBlank = false ∧ line.indentation ≠ []

section Lines

theorem blockLine_of_allBlank (h : old.allBlank = true) : blockLine unit base nested old = [] :=
  if_pos h

theorem blockLine_of_isFlush (h : IsFlush old) :
    blockLine unit base nested old = base ++ old.dropIndentation := by
  have hwhole := Text.indentation_append_dropIndentation old
  rw [h.2, List.nil_append] at hwhole
  rw [blockLine, if_neg (by simp [h.1]), if_pos (by simp [h.2]), hwhole]

/-- How deep an indented line comes to stand. -/
def depth (unit nested : Int) (old : Text) : Int := nested + max (lineWidth unit old - unit) 0

theorem blockLine_of_isIndented (h : IsIndented old) :
    blockLine unit base nested old =
      Text.spaces (depth unit nested old) ++ old.dropIndentation := by
  have hindent : ¬old.indentation.isEmpty = true := by simpa using h.2
  rw [blockLine, if_neg (by simp [h.1]), if_neg hindent]
  rfl

theorem indentation_blockLine_of_isIndented (h : IsIndented old) :
    (blockLine unit base nested old).indentation = Text.spaces (depth unit nested old) := by
  rw [blockLine_of_isIndented h]
  exact Text.indentation_append_dropIndentation_of_forall
    (fun _ => Text.isSpaceOrTab_of_mem_spaces) old

theorem lineWidth_blockLine_of_isIndented (hnested : 0 ≤ nested) (h : IsIndented old) :
    (lineWidth unit (blockLine unit base nested old) : Int) = depth unit nested old := by
  refine lineWidth_of_indentation_eq_spaces ?_ (indentation_blockLine_of_isIndented h)
  unfold depth
  omega

end Lines

/-- What one line of a block becomes in the place of `line`, `nested` being the level below it. -/
structure IsPlaced (unit nested : Int) (line old new : Text) : Prop where
  blank : old.allBlank = true → new = []
  code : old.allBlank = false → new.dropIndentation = old.dropIndentation
  flush : IsFlush old → new.indentation = line.indentation
  indented : IsIndented old →
    ∃ n : Int, new.indentation = Text.spaces n ∧ nested ≤ n ∧ (lineWidth unit new : Int) = n

theorem isPlaced_blockLine (hnested : 0 ≤ nested) (line old : Text) :
    IsPlaced unit nested line old (blockLine unit line.indentation nested old) where
  blank := blockLine_of_allBlank
  code hcode := by
    by_cases hindent : old.indentation = []
    · rw [blockLine_of_isFlush ⟨hcode, hindent⟩]
      exact Text.dropIndentation_append_dropIndentation
        (fun _ => Text.isSpaceOrTab_of_mem_indentation) old
    · rw [blockLine_of_isIndented ⟨hcode, hindent⟩]
      exact Text.dropIndentation_append_dropIndentation
        (fun _ => Text.isSpaceOrTab_of_mem_spaces) old
  flush h := by
    rw [blockLine_of_isFlush h]
    exact Text.indentation_append_dropIndentation_of_forall
      (fun _ => Text.isSpaceOrTab_of_mem_indentation) old
  indented h := by
    refine ⟨depth unit nested old, indentation_blockLine_of_isIndented h, ?_,
      lineWidth_blockLine_of_isIndented hnested h⟩
    unfold depth
    omega

/-- What the lines of a block become in the place of `line`. Of each pair of lines that stand in the
block, the old ones tell how the new ones stand to each other. -/
structure KeepsStructure (unit nested : Int) (line : Text) (lines block : List Text) : Prop where
  length_eq : block.length = lines.length
  placed : ∀ p ∈ lines.zip block, IsPlaced unit nested line p.1 p.2
  deeper : ∀ p ∈ lines.zip block, ∀ q ∈ lines.zip block, IsFlush p.1 → IsIndented q.1 →
    lineWidth unit p.2 < lineWidth unit q.2
  ordered : ∀ p ∈ lines.zip block, ∀ q ∈ lines.zip block, IsIndented p.1 → IsIndented q.1 →
    lineWidth unit p.1 ≤ lineWidth unit q.1 →
      lineWidth unit p.2 ≤ lineWidth unit q.2 ∧
        (unit ≤ lineWidth unit p.1 → (lineWidth unit q.2 : Int) - lineWidth unit p.2 =
          lineWidth unit q.1 - lineWidth unit p.1)

theorem keepsStructure_map_blockLine (hnested : lineWidth unit line < nested)
    (lines : List Text) :
    KeepsStructure unit nested line lines
      (lines.map (blockLine unit line.indentation nested)) := by
  have hnonneg : 0 ≤ nested := by omega
  have hpair : ∀ p ∈ lines.zip (lines.map (blockLine unit line.indentation nested)),
      p.2 = blockLine unit line.indentation nested p.1 := by
    intro p hp
    rw [← List.map_prod_left_eq_zip] at hp
    obtain ⟨old, -, rfl⟩ := List.mem_map.mp hp
    rfl
  have hdepth : ∀ p ∈ lines.zip (lines.map (blockLine unit line.indentation nested)),
      IsIndented p.1 → (lineWidth unit p.2 : Int) = depth unit nested p.1 := by
    intro p hp hindented
    rw [hpair p hp]
    exact lineWidth_blockLine_of_isIndented hnonneg hindented
  refine ⟨List.length_map _, fun p hp => ?_, fun p hp q hq hflush hindented => ?_,
    fun p hp q hq hindented hindented' hle => ?_⟩
  · rw [hpair p hp]
    exact isPlaced_blockLine hnonneg line p.1
  · have hbase : lineWidth unit p.2 = lineWidth unit line := by
      rw [hpair p hp, lineWidth, (isPlaced_blockLine hnonneg line p.1).flush hflush, lineWidth]
    have hbelow := hdepth q hq hindented
    unfold depth at hbelow
    omega
  · have hbelow := hdepth p hp hindented
    have hbelow' := hdepth q hq hindented'
    unfold depth at hbelow hbelow'
    omega

/-- A block keeps its structure, below the next level, for every unit that tabs can be measured in.
With a wider one it is not put in at all. -/
theorem reindentBlock_keeps_structure (hunit : 1 ≤ unit) (line : Text) (lines : List Text) :
    (unit < 2 ^ 31 → ∃ nested block, next (lineWidth unit line) unit = .ok nested ∧
      reindentBlock unit line lines = .ok block ∧
        KeepsStructure unit nested line lines block) ∧
    (2 ^ 31 ≤ unit → reindentBlock unit line lines = .error .tabRange) := by
  constructor
  · intro hlt
    have hmeasure : measureLine unit line = .ok (lineWidth unit line) :=
      if_pos (isTabWidth_iff.mpr ⟨by omega, hlt⟩)
    obtain ⟨nested, hnext, hdeeper⟩ := exists_next_eq hunit (lineWidth unit line)
    refine ⟨nested, lines.map (blockLine unit line.indentation nested), hnext, ?_,
      keepsStructure_map_blockLine hdeeper lines⟩
    rw [reindentBlock, hmeasure]
    simp only [bind, Except.bind, hnext]
    rfl
  · intro hwide
    have hmeasure : measureLine unit line = .error .tabRange := if_neg fun htab =>
      absurd (isTabWidth_iff.mp htab).2 (by omega)
    rw [reindentBlock, hmeasure]
    rfl

def mixedBlock : List Text := ["if x", "  a", "\tb", "\t  c", " ", "\x7d"].map String.toList

theorem reindentBlock_keeps_structure_mixedBlock :
    reindentBlock 4 "\t y".toList mixedBlock =
        .ok (["\t if x", "        a", "        b", "          c", "", "\t \x7d"].map String.toList) ∧
      (∃ nested block, next 5 4 = .ok nested ∧ reindentBlock 4 "\t y".toList mixedBlock = .ok block ∧
        KeepsStructure 4 nested "\t y".toList mixedBlock block) ∧
      reindentBlock (2 ^ 31) "\t y".toList mixedBlock = .error .tabRange := by
  obtain ⟨hkeeps, -⟩ := @reindentBlock_keeps_structure 4 (by decide) "\t y".toList mixedBlock
  obtain ⟨-, hwide⟩ := @reindentBlock_keeps_structure (2 ^ 31) (by decide) "\t y".toList mixedBlock
  exact ⟨by decide +kernel, hkeeps (by decide), hwide (by decide)⟩

/-- A unit that tabs cannot be measured in leaves nothing of a block, not even of a single line. -/
theorem not_reindentBlock_wideUnit :
    ¬∀ (unit : Int) (line : Text) (lines : List Text), 1 ≤ unit →
      ∃ nested block, next (lineWidth unit line) unit = .ok nested ∧
        reindentBlock unit line lines = .ok block ∧
          KeepsStructure unit nested line lines block := by
  intro hall
  obtain ⟨_, block, -, hblock, -⟩ := hall (2 ^ 31) [] [['a']] (by decide)
  have hwide : reindentBlock (2 ^ 31) [] [['a']] = .error .tabRange := rfl
  rw [hwide] at hblock
  cases hblock

end Indentation

end LineLint
