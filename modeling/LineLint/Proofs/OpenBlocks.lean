import LineLint.Proofs.ScannedLines
import Mathlib.Data.Int.Order.Basic

/-!
# Lines inside open brackets

The depth of brackets before a line is cut off at zero behind every line, so that brackets closed
too often never count against later ones. It is the largest balance of a block of lines that ends
before the line: a line goes on with a statement exactly if one of these blocks leaves a bracket
open, or the line before it ends in a backslash.
-/

namespace LineLint

namespace LineScan

variable {style : LiteralStyle} {lines block : List Text} {depth : Int} {backslash : Bool} {i : Nat}

def blockBalance (style : LiteralStyle) : List Text → Int
  | [] => 0
  | line :: block => bracketBalance (style.codeMask line) + blockBalance style block

def depthBehind (style : LiteralStyle) (depth : Int) (lines : List Text) : Int :=
  lines.foldl (fun depth line => max (depth + bracketBalance (style.codeMask line)) 0) depth

theorem depthBehind_cons (style : LiteralStyle) (depth : Int) (line : Text) (lines : List Text) :
    depthBehind style depth (line :: lines) =
      depthBehind style (max (depth + bracketBalance (style.codeMask line)) 0) lines := rfl

/-- A bracket is open behind some lines if one is left open by a block at their end, or by all of
them together with those open before. -/
theorem depthBehind_pos_iff (hdepth : 0 ≤ depth) :
    0 < depthBehind style depth lines ↔
      0 < depth + blockBalance style lines ∨
        ∃ block, block <:+ lines ∧ 0 < blockBalance style block := by
  induction lines generalizing depth with
  | nil =>
      constructor
      · intro hpos
        exact Or.inl ((Int.add_zero depth).symm ▸ hpos)
      · rintro (hpos | ⟨block, hblock, hpos⟩)
        · exact (Int.add_zero depth) ▸ hpos
        · rw [List.suffix_nil.mp hblock] at hpos
          exact absurd hpos (Int.lt_irrefl 0)
  | cons line lines ih =>
      have hblocks : (∃ block, block <:+ line :: lines ∧ 0 < blockBalance style block) ↔
          0 < blockBalance style (line :: lines) ∨
            ∃ block, block <:+ lines ∧ 0 < blockBalance style block := by
        simp only [List.suffix_cons_iff, or_and_right, exists_or, exists_eq_left]
      -- the lines without the first one are such a block, if its brackets are cut off
      have hothers : 0 < blockBalance style lines →
          ∃ block, block <:+ lines ∧ 0 < blockBalance style block :=
        fun hpos => ⟨lines, List.suffix_rfl, hpos⟩
      rw [depthBehind_cons, ih (le_max_right _ _), hblocks, blockBalance]
      constructor
      · rintro (hpos | hblock)
        · by_cases hlines : 0 < blockBalance style lines
          · exact Or.inr (Or.inr (hothers hlines))
          · exact Or.inl (by omega)
        · exact Or.inr (Or.inr hblock)
      · rintro (hall | hall | hblock)
        · exact Or.inl (by omega)
        · exact Or.inl (by omega)
        · exact Or.inr hblock

/-- Whether a line goes on with a statement is told by the depth before it and by the line above. -/
theorem getElem?_continuedFrom (hi : i < lines.length) :
    (continuedFrom style depth backslash lines)[i]? =
      some (decide (0 < depthBehind style depth (lines.take i)) ||
        (lines.take i).getLast?.elim backslash fun line =>
          (style.codeMask line).getLast? == some '\\') := by
  induction lines generalizing depth backslash i with
  | nil => cases hi
  | cons line lines ih =>
      cases i with
      | zero => rfl
      | succ i =>
          rw [continuedFrom, List.getElem?_cons_succ, ih (Nat.lt_of_succ_lt_succ hi),
            List.take_succ_cons, depthBehind_cons, List.getLast?_cons]
          cases (lines.take i).getLast? <;> rfl

/-- There is one flag for each line. It is set exactly if the code of the line before ends in a
backslash or a block of lines that ends before the line opens more brackets than it closes. -/
theorem continued_eq_true_iff (style : LiteralStyle) (lines : List Text) :
    (continued style lines).length = lines.length ∧
      ∀ i, (continued style lines)[i]? = some true ↔ i < lines.length ∧
        ((∃ k line, i = k + 1 ∧ lines[k]? = some line ∧
            (style.codeMask line).getLast? = some '\\') ∨
          ∃ j < i, 0 < blockBalance style ((lines.take i).drop j)) := by
  refine ⟨length_continued style lines, fun i => ?_⟩
  by_cases hi : i < lines.length
  · have hlength : (lines.take i).length = i := List.length_take_of_le (Nat.le_of_lt hi)
    have hdepth : 0 < depthBehind style 0 (lines.take i) ↔
        ∃ j < i, 0 < blockBalance style ((lines.take i).drop j) := by
      rw [depthBehind_pos_iff (le_refl 0), Int.zero_add]
      constructor
      · intro hopen
        obtain ⟨block, hblock, hpos⟩ : ∃ block, block <:+ lines.take i ∧
            0 < blockBalance style block :=
          hopen.elim (fun hpos => ⟨_, List.suffix_rfl, hpos⟩) id
        rw [List.suffix_iff_eq_drop.mp hblock, hlength] at hpos
        refine ⟨i - block.length, ?_, hpos⟩
        by_contra hnone
        rw [List.drop_eq_nil_of_le (by omega)] at hpos
        exact lt_irrefl 0 hpos
      · rintro ⟨j, -, hpos⟩
        exact Or.inr ⟨_, List.drop_suffix j _, hpos⟩
    have hbackslash : ((lines.take i).getLast?.elim false fun line =>
          (style.codeMask line).getLast? == some '\\') = true ↔
        ∃ k line, i = k + 1 ∧ lines[k]? = some line ∧
          (style.codeMask line).getLast? = some '\\' := by
      cases i with
      | zero => simp
      | succ k =>
          have hk : k < lines.length := Nat.lt_of_succ_lt hi
          rw [List.take_succ_eq_append_getElem hk, List.getLast?_concat]
          simp [List.getElem?_eq_getElem hk]
    rw [continued, getElem?_continuedFrom hi, Option.some.injEq, Bool.or_eq_true, decide_eq_true_eq,
      hdepth, hbackslash, or_comm]
    exact (and_iff_right hi).symm
  · rw [List.getElem?_eq_none (by rw [length_continued]; exact Nat.le_of_not_lt hi)]
    simp [hi]

end LineScan

end LineLint
