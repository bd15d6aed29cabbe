import LineLint.Blank
import Mathlib.Data.List.DropRight
import Mathlib.Data.List.TakeWhile

/-!
# Trimmed texts

A text is made of its trimmed form and the blanks at its ends. What stands before a character that
is no blank plays no part in the trimming of the end.
-/

namespace LineLint

namespace Text

def trailingBlanks (t : Text) : Text := t.rtakeWhile isBlank

theorem trimRight_append_trailingBlanks (t : Text) : t.trimRight ++ t.trailingBlanks = t :=
  List.rdropWhile_append_rtakeWhile

theorem isBlank_of_mem_trailingBlanks {t : Text} {c : Char} (h : c ∈ t.trailingBlanks) :
    isBlank c = true :=
  List.mem_rtakeWhile_imp h

theorem exists_not_isBlank {t : Text} (h : t.allBlank = false) : ∃ c ∈ t, isBlank c = false := by
  simpa [allBlank] using h

theorem trimRight_ne_nil {t : Text} (h : t.allBlank = false) : t.trimRight ≠ [] := by
  intro hnil
  obtain ⟨c, hc, hblank⟩ := exists_not_isBlank h
  rw [List.rdropWhile_eq_nil_iff.mp hnil c hc] at hblank
  cases hblank

theorem getLast?_trimRight {t : Text} (h : t.allBlank = false) :
    ∃ c, t.trimRight.getLast? = some c ∧ isBlank c = false := by
  have hne := trimRight_ne_nil h
  have hlast : ¬isBlank (t.trimRight.getLast hne) = true :=
    List.rdropWhile_last_not isBlank t hne
  exact ⟨_, List.getLast?_eq_some_getLast hne, by simpa using hlast⟩

theorem trimRight_append {t : Text} (h : t.allBlank = false) (s : Text) :
    (s ++ t).trimRight = s ++ t.trimRight := by
  have hne : t.reverse.dropWhile isBlank ≠ [] := fun hnil =>
    trimRight_ne_nil h (List.reverse_eq_nil_iff.mpr hnil)
  have hsome : (t.reverse.dropWhile isBlank).isEmpty = false := by simpa using hne
  rw [trimRight, dropRightWhile, List.reverse_append, List.dropWhile_append, hsome]
  simp [trimRight, dropRightWhile]

theorem trimRight_append_of_allBlank {t : Text} (h : t.allBlank = true) (s : Text) :
    (s ++ t).trimRight = s.trimRight := by
  have hback : ∀ c ∈ t.reverse, isBlank c = true := fun c hc =>
    List.all_eq_true.mp h c (List.mem_reverse.mp hc)
  rw [trimRight, dropRightWhile, List.reverse_append, List.dropWhile_append_of_pos hback]
  rfl

theorem allBlank_trailingBlanks (t : Text) : t.trailingBlanks.allBlank = true :=
  List.all_eq_true.mpr fun _ hc => isBlank_of_mem_trailingBlanks hc

theorem trimRight_append_trimRight (s t : Text) :
    (s ++ t.trimRight).trimRight = (s ++ t).trimRight := by
  conv_rhs => rw [← trimRight_append_trailingBlanks t, ← List.append_assoc]
  rw [trimRight_append_of_allBlank (allBlank_trailingBlanks t)]

theorem trimRight_eq_self {t : Text} (h : ∀ c ∈ t.getLast?, isBlank c = false) :
    t.trimRight = t := by
  apply List.rdropWhile_eq_self_iff.mpr
  intro hne
  rw [h _ (List.getLast?_eq_some_getLast hne)]
  exact Bool.false_ne_true

theorem isBlank_of_mem_getLast?_trimRight {t : Text} {c : Char} (h : c ∈ t.trimRight.getLast?) :
    isBlank c = false := by
  have hne : t.trimRight ≠ [] := List.ne_nil_of_mem (List.mem_of_getLast? h)
  rw [List.getLast?_eq_some_getLast hne] at h
  obtain rfl := Option.some.inj h
  exact Bool.eq_false_iff.mpr (List.rdropWhile_last_not isBlank t hne)

theorem trimLeft_append {t : Text} : ∃ blanks : Text,
    t = blanks ++ t.trimLeft ∧ ∀ c ∈ blanks, isBlank c = true :=
  ⟨t.takeWhile isBlank, List.takeWhile_append_dropWhile.symm, fun _ hc =>
    List.mem_takeWhile_imp hc⟩

theorem isBlank_of_mem_head?_trimLeft {t : Text} {c : Char} (h : c ∈ t.trimLeft.head?) :
    isBlank c = false := by
  have hnot := List.head?_dropWhile_not isBlank t
  rw [show t.dropWhile isBlank = t.trimLeft from rfl, Option.mem_def.mp h] at hnot
  simpa using hnot

theorem exists_trimLeft_eq_cons {t : Text} (h : t.allBlank = false) :
    ∃ c rest, t.trimLeft = c :: rest ∧ c ∈ t ∧ isBlank c = false := by
  obtain ⟨blanks, ht, hblanks⟩ := @trimLeft_append t
  cases hfirst : t.trimLeft with
  | nil =>
      rw [ht, hfirst, List.append_nil, allBlank, List.all_eq_true.mpr hblanks] at h
      cases h
  | cons c rest =>
      have hmem : c ∈ t := by
        rw [ht, hfirst]
        exact List.mem_append_right blanks List.mem_cons_self
      exact ⟨c, rest, rfl, hmem, isBlank_of_mem_head?_trimLeft (by rw [hfirst]; rfl)⟩

theorem isBlank_or_mem_trim {t : Text} {c : Char} (h : c ∈ t) :
    isBlank c = true ∨ c ∈ t.trim := by
  obtain ⟨blanks, ht, hblanks⟩ := @trimLeft_append t
  rw [ht] at h
  rcases List.mem_append.mp h with h | h
  · exact Or.inl (hblanks c h)
  · rw [← trimRight_append_trailingBlanks t.trimLeft] at h
    rcases List.mem_append.mp h with h | h
    · exact Or.inr h
    · exact Or.inl (isBlank_of_mem_trailingBlanks h)

theorem trim_append_left {s : Text} (h : s.allBlank = true) (t : Text) : (s ++ t).trim = t.trim := by
  rw [trim, trimLeft, List.dropWhile_append_of_pos (List.all_eq_true.mp h)]
  rfl

theorem trim_append_right {t : Text} (h : t.allBlank = true) (s : Text) : (s ++ t).trim = s.trim := by
  rw [trim, trim, trimLeft, trimLeft, List.dropWhile_append]
  split_ifs with hnil
  · rw [List.isEmpty_iff.mp hnil, List.dropWhile_eq_nil_iff.mpr (List.all_eq_true.mp h)]
  · exact trimRight_append_of_allBlank h _

theorem trim_trimRight (t : Text) : t.trimRight.trim = t.trim := by
  conv_rhs => rw [← trimRight_append_trailingBlanks t]
  rw [trim_append_right (allBlank_trailingBlanks t)]

theorem exists_trim_eq (t : Text) : ∃ lead trail : Text, lead.allBlank = true ∧
    trail.allBlank = true ∧ t = lead ++ (t.trim ++ trail) := by
  obtain ⟨lead, ht, hlead⟩ := @trimLeft_append t
  refine ⟨lead, t.trimLeft.trailingBlanks, List.all_eq_true.mpr hlead, allBlank_trailingBlanks _, ?_⟩
  rw [trim, trimRight_append_trailingBlanks]
  exact ht

theorem trim_trim (t : Text) : t.trim.trim = t.trim := by
  obtain ⟨lead, trail, hlead, htrail, ht⟩ := exists_trim_eq t
  conv_rhs => rw [ht]
  rw [trim_append_left hlead, trim_append_right htrail]

theorem trim_eq_nil_iff {t : Text} : t.trim = [] ↔ t.allBlank = true := by
  constructor
  · intro hnil
    obtain ⟨lead, trail, hlead, htrail, ht⟩ := exists_trim_eq t
    rw [ht, hnil, List.nil_append, allBlank, List.all_append]
    exact Bool.and_eq_true_iff.mpr ⟨hlead, htrail⟩
  · intro hblank
    rw [← List.append_nil t, trim_append_left hblank]
    rfl

theorem exists_trimRight_eq (t : Text) : ∃ lead : Text, lead.allBlank = true ∧
    t.trimRight = lead ++ t.trim ∧ (t.trim = [] → lead = []) := by
  obtain ⟨lead, trail, hlead, htrail, ht⟩ := exists_trim_eq t
  by_cases hnil : t.trim = []
  · refine ⟨[], rfl, ?_, fun _ => rfl⟩
    rw [hnil]
    exact trimRight_append_of_allBlank (trim_eq_nil_iff.mp hnil) []
  · refine ⟨lead, hlead, ?_, fun h => absurd h hnil⟩
    conv_lhs => rw [ht]
    rw [← List.append_assoc, trimRight_append_of_allBlank htrail]
    apply trimRight_eq_self
    intro c hc
    rw [List.getLast?_append_of_ne_nil _ hnil] at hc
    exact isBlank_of_mem_getLast?_trimRight hc

theorem isBlank_of_mem_head?_trim {t : Text} {c : Char} (h : c ∈ t.trim.head?) :
    isBlank c = false := by
  obtain ⟨rest, htrim⟩ := List.head?_eq_some_iff.mp h
  have hfirst : t.trimLeft.head? = some c := by
    rw [← trimRight_append_trailingBlanks t.trimLeft, ← trim, htrim]
    rfl
  exact isBlank_of_mem_head?_trimLeft hfirst

theorem getLast?_trimRight_eq (t : Text) : t.trimRight.getLast? = t.trim.getLast? := by
  obtain ⟨lead, -, ht, hnil⟩ := exists_trimRight_eq t
  rw [ht]
  by_cases htrim : t.trim = []
  · rw [htrim, hnil htrim, List.append_nil]
  · exact List.getLast?_append_of_ne_nil _ htrim

theorem count_trimRight {c : Char} (hc : isBlank c = false) (t : Text) :
    t.trimRight.count c = t.trim.count c := by
  obtain ⟨lead, hlead, ht, -⟩ := exists_trimRight_eq t
  have hnone : c ∉ lead := by
    intro hmem
    rw [List.all_eq_true.mp hlead c hmem] at hc
    cases hc
  rw [ht, List.count_append, List.count_eq_zero.mpr hnone, Nat.zero_add]

theorem trimLeft_append_cons {q : Char} (hq : isBlank q = false) (s rest : Text) :
    (s ++ q :: rest).trimLeft = s.trimLeft ++ q :: rest := by
  rw [trimLeft, trimLeft, List.dropWhile_append]
  split_ifs with hnil
  · rw [List.isEmpty_iff.mp hnil, List.dropWhile_cons_of_neg (by simp [hq]), List.nil_append]
  · rfl

theorem trimLeft_trimRight (t : Text) : t.trimRight.trimLeft = t.trim := by
  obtain ⟨lead, hlead, ht, hnil⟩ := exists_trimRight_eq t
  cases htrim : t.trim with
  | nil =>
      rw [ht, htrim, hnil htrim]
      rfl
  | cons c rest =>
      have hc : isBlank c = false := isBlank_of_mem_head?_trim (by rw [htrim]; rfl)
      have hdrop : lead.trimLeft = [] := List.dropWhile_eq_nil_iff.mpr (List.all_eq_true.mp hlead)
      rw [ht, htrim, trimLeft_append_cons hc, hdrop, List.nil_append]

/-- A text is trimmed beside a character that is no blank as if it ended there. -/
theorem exists_trim_append_cons {q : Char} (hq : isBlank q = false) (s rest : Text) :
    ∃ rest', (s ++ q :: rest).trim = s.trimLeft ++ q :: rest' := by
  have hsome : allBlank (q :: rest) = false := by simp [allBlank, hq]
  obtain ⟨c, others, hcons⟩ := List.exists_cons_of_ne_nil (trimRight_ne_nil hsome)
  have hparts := trimRight_append_trailingBlanks (q :: rest)
  rw [hcons, List.cons_append] at hparts
  obtain ⟨rfl, -⟩ := List.cons.inj hparts
  exact ⟨others, by rw [trim, trimLeft_append_cons hq, trimRight_append hsome, hcons]⟩

theorem ne_nil_of_trim_ne_nil {t : Text} (h : t.trim ≠ []) : t ≠ [] := by
  rintro rfl
  exact h rfl

theorem isBlank_of_isSpaceOrTab {c : Char} (h : isSpaceOrTab c = true) : isBlank c = true := by
  have hc : c = ' ' ∨ c = '\t' := by simpa [isSpaceOrTab] using h
  rcases hc with rfl | rfl
  all_goals decide

theorem indentation_append_dropIndentation (line : Text) :
    line.indentation ++ line.dropIndentation = line :=
  List.takeWhile_append_dropWhile

theorem indentation_append_dropIndentation_of_forall {front : Text}
    (hfront : ∀ c ∈ front, isSpaceOrTab c = true) (line : Text) :
    (front ++ line.dropIndentation).indentation = front := by
  have hnone : line.dropIndentation.takeWhile isSpaceOrTab = [] := by
    have hnot := List.head?_dropWhile_not isSpaceOrTab line
    rw [dropIndentation]
    cases hdrop : line.dropWhile isSpaceOrTab with
    | nil => rfl
    | cons c rest =>
        rw [hdrop] at hnot
        exact List.takeWhile_cons_of_neg (by simpa using hnot)
  rw [indentation, List.takeWhile_append_of_pos hfront, hnone, List.append_nil]

theorem dropIndentation_append_dropIndentation {front : Text}
    (hfront : ∀ c ∈ front, isSpaceOrTab c = true) (line : Text) :
    (front ++ line.dropIndentation).dropIndentation = line.dropIndentation := by
  rw [dropIndentation, List.dropWhile_append_of_pos hfront]
  exact List.dropWhile_idempotent isSpaceOrTab line

theorem isSpaceOrTab_of_mem_indentation {line : Text} {c : Char} (h : c ∈ line.indentation) :
    isSpaceOrTab c = true :=
  List.mem_takeWhile_imp h

theorem isSpaceOrTab_of_mem_spaces {n : Int} {c : Char} (h : c ∈ spaces n) :
    isSpaceOrTab c = true := by
  rw [List.eq_of_mem_replicate h]
  decide

theorem trim_dropIndentation (line : Text) : line.dropIndentation.trim = line.trim := by
  have hblank : line.indentation.allBlank = true := List.all_eq_true.mpr fun c hc =>
    isBlank_of_isSpaceOrTab (isSpaceOrTab_of_mem_indentation hc)
  conv_rhs => rw [← indentation_append_dropIndentation line, trim_append_left hblank]

theorem allBlank_dropIndentation (line : Text) :
    line.dropIndentation.allBlank = line.allBlank := by
  conv_rhs => rw [← indentation_append_dropIndentation line]
  rw [allBlank, allBlank, List.all_append]
  have hindent : line.indentation.all isBlank = true := List.all_eq_true.mpr fun c hc =>
    isBlank_of_isSpaceOrTab (isSpaceOrTab_of_mem_indentation hc)
  rw [hindent, Bool.true_and]

theorem dropIndentation_ne_nil {line : Text} (h : line.allBlank = false) :
    line.dropIndentation ≠ [] := by
  intro hnil
  rw [← allBlank_dropIndentation, hnil] at h
  cases h

theorem dropIndentation_trimRight_append {line : Text} (h : line.allBlank = false) (new : Text) :
    (line.trimRight ++ new).dropIndentation = line.dropIndentation.trimRight ++ new := by
  have hbase : line.dropIndentation.allBlank = false := by rwa [allBlank_dropIndentation]
  have htrim : line.trimRight = line.indentation ++ line.dropIndentation.trimRight := by
    rw [← trimRight_append hbase, indentation_append_dropIndentation]
  obtain ⟨c, rest, hcons⟩ := List.exists_cons_of_ne_nil (trimRight_ne_nil hbase)
  have hhead : isSpaceOrTab c = false := by
    have hfirst : line.dropIndentation.head? = some c := by
      rw [← trimRight_append_trailingBlanks line.dropIndentation, hcons]
      rfl
    have hnot := List.head?_dropWhile_not isSpaceOrTab line
    rw [show line.dropWhile isSpaceOrTab = line.dropIndentation from rfl, hfirst] at hnot
    simpa using hnot
  rw [htrim, hcons, List.append_assoc, dropIndentation,
    List.dropWhile_append_of_pos fun c => isSpaceOrTab_of_mem_indentation, List.cons_append,
    List.dropWhile_cons_of_neg (by simp [hhead])]

theorem allBlank_spaces (n : Int) : (spaces n).allBlank = true := by
  apply List.all_eq_true.mpr
  intro c hc
  rw [List.eq_of_mem_replicate hc]
  decide

theorem trim_spaces_append_trim (n : Int) (t : Text) : (spaces n ++ t.trim).trim = t.trim := by
  rw [trim_append_left (allBlank_spaces n), trim_trim]

theorem indentation_spaces_append_trim {t : Text} (h : t.trim ≠ []) (n : Int) :
    (spaces n ++ t.trim).indentation = spaces n := by
  obtain ⟨c, rest, htrim⟩ := List.exists_cons_of_ne_nil h
  have hblank : isBlank c = false := isBlank_of_mem_head?_trim (by rw [htrim]; rfl)
  have hc : ¬isSpaceOrTab c = true := by
    intro hspace
    rw [isBlank_of_isSpaceOrTab hspace] at hblank
    cases hblank
  rw [indentation, htrim, List.takeWhile_append_of_pos fun c => isSpaceOrTab_of_mem_spaces,
    List.takeWhile_cons_of_neg hc, List.append_nil]

end Text

end LineLint
