import LineLint.Proofs.LineGroups
import LineLint.Relocation
import Mathlib.Data.List.Basic

/-!
# The order of relocated lines

The order lists each line once, whatever the pattern, so relocation loses and doubles no line. A
diagnostic is moved to the place of its line in the order.
-/

namespace LineLint

theorem docBlockLength_le (quote : Text) (lines : List Text) :
    docBlockLength quote lines ≤ lines.length := by
  induction lines with
  | nil => simp [docBlockLength]
  | cons line rest ih =>
      rw [docBlockLength, List.length_cons]
      split_ifs <;> omega

theorem preambleFrom_le (comment : Text) (docSeen : Bool) (lines : List Text) :
    preambleFrom comment docSeen lines ≤ lines.length := by
  fun_induction preambleFrom comment docSeen lines with
  | case1 => simp
  | case2 docSeen line rest stripped h ih => simpa using ih
  | case3 => simp
  | case4 docSeen line rest stripped h quote hq hclose ih => simpa using ih
  | case5 docSeen line rest stripped h quote hq hclose body ih =>
      have hbody : body ≤ rest.length := docBlockLength_le quote rest
      rw [List.length_drop] at ih
      rw [List.length_cons]
      omega

theorem leadingPreamble_le (comment : Text) (lines : List Text) :
    leadingPreamble comment lines ≤ lines.length :=
  preambleFrom_le comment false lines

namespace Relocation

@[simp] theorem length_movedFrom (pattern : Pattern) (style : LiteralStyle) (balance : Int)
    (lines : List Text) : (movedFrom pattern style balance lines).length = lines.length := by
  induction lines generalizing balance with
  | nil => rfl
  | cons line rest ih =>
      rw [movedFrom]
      split_ifs <;> simp [ih]

theorem positions_perm (marks : List Bool) (first : Nat) :
    ((((marks.zipIdx first).filter (·.1)).map (·.2)) ++
      ((marks.zipIdx first).filter fun m => !m.1).map (·.2)).Perm
      (List.range' first marks.length) := by
  rw [← List.map_append]
  have hparts := (List.filter_append_perm (fun m : Bool × Nat => m.1) (marks.zipIdx first)).map
    (·.2)
  rwa [List.zipIdx_map_snd] at hparts

theorem order_perm (pattern : Pattern) (style : LiteralStyle) (lines : List Text) :
    (order pattern style lines).Perm (List.range lines.length) := by
  unfold order
  simp only
  generalize htop : leadingPreamble _ lines = top
  have hle : top ≤ lines.length := htop ▸ leadingPreamble_le _ lines
  have hmoved := positions_perm (movedFrom pattern style 0 (lines.drop top)) top
  rw [length_movedFrom, List.length_drop] at hmoved
  rw [List.append_assoc]
  refine (hmoved.append_left (List.range top)).trans (List.Perm.of_eq ?_)
  have happend := @List.range'_append 0 top (lines.length - top) 1
  rw [List.range_eq_range', List.range_eq_range']
  simpa [Nat.add_sub_cancel' hle] using happend

theorem filter_zipIdx_of_nodup {xs : List Int} (hnodup : xs.Nodup) {i : Nat} {x : Int}
    (hx : xs[i]? = some x) (first : Nat) :
    (xs.zipIdx first).filter (fun entry => entry.1 == x) = [(x, first + i)] := by
  induction xs generalizing first i with
  | nil => simp at hx
  | cons y ys ih =>
      obtain ⟨hy, hys⟩ := List.nodup_cons.mp hnodup
      rw [List.zipIdx_cons]
      cases i with
      | zero =>
          obtain rfl : y = x := by simpa using hx
          rw [List.filter_cons_of_pos (by simp), List.filter_eq_nil_iff.mpr, Nat.add_zero]
          rintro ⟨z, k⟩ hm hz
          obtain rfl : z = y := by simpa using hz
          exact hy (List.fst_mem_of_mem_zipIdx hm)
      | succ i =>
          rw [List.getElem?_cons_succ] at hx
          have hne : y ≠ x := by
            rintro rfl
            exact hy (List.mem_of_getElem? hx)
          rw [List.filter_cons_of_neg (by simpa using hne), ih hys hx, Nat.add_assoc,
            Nat.add_comm 1]

theorem newPosition?_of_getElem? {order : List Nat} (hnodup : order.Nodup)
    {position index : Nat} (h : order[position]? = some index) :
    newPosition? (order.map Int.ofNat) index = some position := by
  have hint : (order.map Int.ofNat).Nodup := hnodup.map fun _ _ => Int.ofNat.inj
  have hget : (order.map Int.ofNat)[position]? = some (index : Int) := by
    rw [List.getElem?_map, h]
    rfl
  rw [newPosition?, filter_zipIdx_of_nodup hint hget, List.getLast?_singleton, Option.map_some,
    Nat.zero_add]

theorem newPosition?_eq_none {order : List Nat} {index : Int}
    (h : ∀ i ∈ order, (i : Int) ≠ index) : newPosition? (order.map Int.ofNat) index = none := by
  have hnone : (order.map Int.ofNat).zipIdx.filter (fun entry => entry.1 == index) = [] := by
    refine List.filter_eq_nil_iff.mpr ?_
    rintro ⟨z, k⟩ hm hz
    obtain ⟨i, hi, rfl⟩ := List.mem_map.mp (List.fst_mem_of_mem_zipIdx hm)
    exact h i hi (by simpa using hz)
  rw [newPosition?, hnone, List.getLast?_nil, Option.map_none]

theorem remap_of_getElem? {order : List Nat} (hnodup : order.Nodup) {d : Diagnostic}
    {position index : Nat} (h : order[position]? = some index) (hd : d.line - 1 = index) :
    remap (order.map Int.ofNat) d = { d with line := position + 1 } := by
  rw [remap, hd, newPosition?_of_getElem? hnodup h]

theorem remap_of_not_mem {order : List Nat} {d : Diagnostic}
    (h : ∀ i ∈ order, (i : Int) ≠ d.line - 1) : remap (order.map Int.ofNat) d = d := by
  rw [remap, newPosition?_eq_none h]

section Reordered

variable {order : List Nat} {n : Nat} (hperm : order.Perm (List.range n))
include hperm

/-- Only the diagnostics of a line come to the place of the line. -/
theorem line_remap_eq_iff {position index : Nat} (h : order[position]? = some index)
    (d : Diagnostic) :
    (remap (order.map Int.ofNat) d).line - 1 = position ↔ d.line - 1 = index := by
  have hnodup : order.Nodup := hperm.nodup_iff.mpr List.nodup_range
  by_cases hmem : ∃ i ∈ order, (i : Int) = d.line - 1
  · obtain ⟨i, hi, hline⟩ := hmem
    obtain ⟨p, hp⟩ := List.mem_iff_getElem?.mp hi
    rw [remap_of_getElem? hnodup hp hline.symm, ← hline]
    simp only [Int.add_sub_cancel, Int.ofNat_inj]
    constructor
    · rintro rfl
      exact Option.some.inj (hp.symm.trans h)
    · rintro rfl
      obtain ⟨hlt, hget⟩ := List.getElem?_eq_some_iff.mp hp
      obtain ⟨hlt', hget'⟩ := List.getElem?_eq_some_iff.mp h
      exact (hnodup.getElem_inj_iff).mp (hget.trans hget'.symm)
  · have hout : ∀ i ∈ order, (i : Int) ≠ d.line - 1 := fun i hi he => hmem ⟨i, hi, he⟩
    rw [remap_of_not_mem hout]
    have hposition : position ∈ order := by
      obtain ⟨hlt, -⟩ := List.getElem?_eq_some_iff.mp h
      rw [hperm.mem_iff, List.mem_range]
      simpa [hperm.length_eq] using hlt
    constructor
    · intro he
      exact absurd he.symm (hout position hposition)
    · intro he
      exact absurd he.symm (hout index (List.mem_of_getElem? h))

theorem ofLine_map_remap {position index : Nat} (h : order[position]? = some index)
    (ds : List Diagnostic) :
    ofLine (ds.map (remap (order.map Int.ofNat))) position =
      (ofLine ds index).map (remap (order.map Int.ofNat)) := by
  rw [ofLine, List.filter_map, ofLine]
  congr 1
  refine List.filter_congr fun d _ => ?_
  rw [Bool.eq_iff_iff, Function.comp_apply, beq_iff_eq, beq_iff_eq]
  exact line_remap_eq_iff hperm h d

end Reordered

end Relocation

end LineLint
