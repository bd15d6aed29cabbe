import LineLint.LineScan
import Mathlib.Data.List.Basic

/-!
# Scanned lines

What a scan over the lines of a text finds lies within the text: the lines with code around a
position, the parenthesis that closes another, and the lines that are scanned together with other
data.
-/

namespace LineLint

namespace LineScan

theorem firstCode?_eq_some {lines : List Text} {k : Nat} (h : firstCode? lines = some k) :
    ∃ line, lines[k]? = some line ∧ line.allBlank = false := by
  induction lines generalizing k with
  | nil => cases h
  | cons line rest ih =>
      rw [firstCode?] at h
      split_ifs at h with hblank
      · obtain ⟨offset, hoffset, rfl⟩ := Option.map_eq_some_iff.mp h
        obtain ⟨found, hfound, hcode⟩ := ih hoffset
        exact ⟨found, hfound, hcode⟩
      · obtain rfl := Option.some.inj h
        exact ⟨line, rfl, by simpa using hblank⟩

theorem lastCode?_eq_some {lines : List Text} {stop i : Nat} (h : lastCode? lines stop = some i) :
    i < stop ∧ ∃ line, lines[i]? = some line ∧ line.allBlank = false := by
  obtain ⟨offset, hoffset, rfl⟩ := Option.map_eq_some_iff.mp h
  obtain ⟨line, hline, hcode⟩ := firstCode?_eq_some hoffset
  have hlt : offset < (lines.take stop).length := by
    obtain ⟨hlt, -⟩ := List.getElem?_eq_some_iff.mp hline
    simpa using hlt
  rw [List.getElem?_reverse hlt, List.getElem?_take, List.length_take] at hline
  rw [List.length_take] at hlt
  split_ifs at hline with hstop
  · exact ⟨hstop, line, hline, hcode⟩

theorem closingParenFrom?_lt {depth : Int} {t : Text} {k : Nat}
    (h : closingParenFrom? depth t = some k) : k < t.length := by
  induction t generalizing depth k with
  | nil => cases h
  | cons c rest ih =>
      rw [closingParenFrom?] at h
      rw [List.length_cons]
      split_ifs at h
      · obtain ⟨offset, hoffset, rfl⟩ := Option.map_eq_some_iff.mp h
        exact Nat.succ_lt_succ (ih hoffset)
      · obtain rfl := Option.some.inj h
        omega
      · obtain ⟨offset, hoffset, rfl⟩ := Option.map_eq_some_iff.mp h
        exact Nat.succ_lt_succ (ih hoffset)
      · obtain ⟨offset, hoffset, rfl⟩ := Option.map_eq_some_iff.mp h
        exact Nat.succ_lt_succ (ih hoffset)

theorem closingParen?_lt {t : Text} {opening close : Nat}
    (h : closingParen? t opening = some close) : close < t.length := by
  obtain ⟨offset, hoffset, rfl⟩ := Option.map_eq_some_iff.mp h
  have hlt := closingParenFrom?_lt hoffset
  rw [List.length_drop] at hlt
  omega

theorem length_continuedFrom (style : LiteralStyle) (depth : Int) (backslash : Bool)
    (lines : List Text) : (continuedFrom style depth backslash lines).length = lines.length := by
  induction lines generalizing depth backslash with
  | nil => rfl
  | cons line lines ih => rw [continuedFrom, List.length_cons, ih, List.length_cons]

/-- Whether a line goes on with a statement is told by the lines before it. -/
theorem getElem?_continuedFrom_set (style : LiteralStyle) (depth : Int) (backslash : Bool)
    (lines : List Text) (i : Nat) (new : Text) :
    (continuedFrom style depth backslash (lines.set i new))[i]? =
      (continuedFrom style depth backslash lines)[i]? := by
  induction lines generalizing depth backslash i with
  | nil => rfl
  | cons line lines ih =>
      cases i with
      | zero => rfl
      | succ i =>
          rw [List.set_cons_succ, continuedFrom, continuedFrom, List.getElem?_cons_succ,
            List.getElem?_cons_succ, ih]

theorem getElem?_continued_set (style : LiteralStyle) (lines : List Text) (i : Nat) (new : Text) :
    (continued style (lines.set i new))[i]? = (continued style lines)[i]? :=
  getElem?_continuedFrom_set style 0 false lines i new

theorem length_continued (style : LiteralStyle) (lines : List Text) :
    (continued style lines).length = lines.length :=
  length_continuedFrom style 0 false lines

end LineScan

/-- Entries that stand for the lines from an index on, each with something about its line. -/
def StandFor {α : Type} (lines : List Text) (index : Nat) (entries : List (Text × α)) : Prop :=
  ∀ k line other, entries[k]? = some (line, other) → lines[index + k]? = some line

section StandFor

variable {α : Type} {lines : List Text} {index : Nat}

theorem StandFor.head {line : Text} {other : α} {rest : List (Text × α)}
    (h : StandFor lines index ((line, other) :: rest)) : lines[index]? = some line :=
  h 0 line other rfl

theorem StandFor.tail {entry : Text × α} {rest : List (Text × α)}
    (h : StandFor lines index (entry :: rest)) : StandFor lines (index + 1) rest := by
  intro k line other hget
  rw [Nat.add_assoc, Nat.add_comm 1 k]
  exact h (k + 1) line other hget

theorem standFor_zip (lines : List Text) (others : List α) :
    StandFor lines 0 (lines.zip others) := by
  intro k line other hget
  rw [Nat.zero_add]
  exact (List.getElem?_zip_eq_some.mp hget).1

theorem StandFor.drop {entries : List (Text × α)} (h : StandFor lines 0 entries) (n : Nat) :
    StandFor lines n (entries.drop n) := by
  intro k line other hget
  rw [List.getElem?_drop] at hget
  simpa using h (n + k) line other hget

theorem StandFor.getElem?_of_mem_zipIdx {entries : List (Text × α)} {line : Text} {other : α}
    {i : Nat} (h : StandFor lines 0 entries) (hm : ((line, other), i) ∈ entries.zipIdx) :
    lines[i]? = some line := by
  have hget := h i line other (List.mem_zipIdx_iff_getElem?.mp hm)
  rwa [Nat.zero_add] at hget

end StandFor

end LineLint
