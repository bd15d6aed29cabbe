import LineLint.Proofs.TextSplit
import LineLint.SourceLines

/-!
# Lines written and read again

Written again from its lines, a text comes back unchanged exactly if its newlines are uniform. Other
lines, written in the place of its own, are read back up to what becomes of a last line that has no
newline behind it.
-/

namespace LineLint

open Text

namespace SourceLines

/-- The carriage return, if any, that is written at the end of each closed line of a text. -/
def writtenReturn (t : Text) : Text := if includes t ['\r', '\n'] then ['\r'] else []

theorem dropReturn_append_return (line : Text) : dropReturn (line ++ ['\r']) = line := by
  simp [dropReturn]

theorem dropReturn_eq_self {line : Text} (h : line.getLast? ≠ some '\r') :
    dropReturn line = line := by
  simp [dropReturn, h]

theorem dropReturn_append_return_eq {line : Text} (h : line.getLast? = some '\r') :
    dropReturn line ++ ['\r'] = line := by
  obtain ⟨start, rfl⟩ := List.getLast?_eq_some_iff.mp h
  rw [dropReturn_append_return]

theorem dropReturn_eq_self_iff {line : Text} :
    dropReturn line = line ↔ line.getLast? ≠ some '\r' := by
  refine ⟨fun h hlast => ?_, dropReturn_eq_self⟩
  have hlen := congrArg List.length (dropReturn_append_return_eq hlast)
  rw [h, List.length_append] at hlen
  simp at hlen

theorem not_mem_dropReturn {line : Text} {c : Char} (h : c ∉ line) : c ∉ dropReturn line := by
  unfold dropReturn
  split_ifs
  · exact fun hc => h (List.dropLast_subset line hc)
  · exact h

theorem newline_ofText (t : Text) : (ofText t).newline = writtenReturn t ++ ['\n'] := by
  unfold ofText writtenReturn
  by_cases ht : t.isEmpty
  · have hnil : t = [] := List.isEmpty_iff.mp ht
    subst hnil
    rfl
  · rw [if_neg ht]
    simp only
    split_ifs <;> rfl

theorem renderWith_of_trailing {s : SourceLines} (h : s.trailingNewline = true)
    (lines : List Text) : s.renderWith lines = lines.flatMap (· ++ s.newline) := by
  unfold renderWith
  cases lines using List.reverseRecOn with
  | nil => rfl
  | append_singleton lines line => simp [joinWith_snoc, h]

theorem renderWith_snoc {s : SourceLines} (h : s.trailingNewline = false) (lines : List Text)
    (line : Text) : s.renderWith (lines ++ [line]) = lines.flatMap (· ++ s.newline) ++ line := by
  unfold renderWith
  simp [joinWith_snoc, h]

/-- Lines that are closed by a newline behind some mark are closed lines with the mark in them. -/
theorem flatMap_append_mark (mark : Text) (lines : List Text) :
    lines.flatMap (· ++ (mark ++ ['\n'])) = (lines.map (· ++ mark)).flatMap (· ++ ['\n']) := by
  simp [List.flatMap_map]

section Closed

variable {t last : Text} {closed : List Text} (h : splitOn '\n' t = closed ++ [last])
include h

theorem trailingNewline_ofText : (ofText t).trailingNewline = true ↔ closed ≠ [] ∧ last = [] := by
  have ht : closed.flatMap (· ++ ['\n']) ++ last = t := flatMap_append_of_splitOn h
  have hlast : '\n' ∉ last := not_mem_last h
  have hend : (ofText t).trailingNewline = true ↔ t.getLast? = some '\n' := by
    unfold ofText
    by_cases hempty : t.isEmpty
    · simp [List.isEmpty_iff.mp hempty]
    · simp [hempty]
  rw [hend, ← ht]
  cases closed using List.reverseRecOn with
  | nil =>
      have hnot : last.getLast? ≠ some '\n' := fun hget => hlast (List.mem_of_getLast? hget)
      simpa using hnot
  | append_singleton closed part _ =>
      cases hcase : last with
      | nil => simp
      | cons c rest =>
          have hnot : (c :: rest).getLast? ≠ some '\n' := by
            intro hget
            apply hlast
            rw [hcase]
            exact List.mem_of_getLast? hget
          simpa [List.getLast?_append] using hnot

theorem lines_ofText :
    (ofText t).lines =
      if last = [] then closed.map dropReturn else closed.map dropReturn ++ [dropReturn last] := by
  have htrailing := trailingNewline_ofText h
  have ht : closed.flatMap (· ++ ['\n']) ++ last = t := flatMap_append_of_splitOn h
  unfold ofText at htrailing ⊢
  by_cases hempty : t.isEmpty
  · rw [List.isEmpty_iff.mp hempty] at h
    have hparts : [] ++ [[]] = closed ++ [last] := h
    obtain ⟨hclosed, hlast⟩ := List.append_inj' hparts rfl
    simp [hempty, ← hclosed, List.singleton_inj.mp hlast.symm]
  · simp only [hempty, Bool.false_eq_true, if_false] at htrailing ⊢
    rw [h]
    by_cases hlast : last = []
    · have hclosed : closed ≠ [] := by
        rintro rfl
        exact hempty (by simp [← ht, hlast])
      rw [if_pos hlast, if_pos (htrailing.mpr ⟨hclosed, hlast⟩), List.dropLast_concat]
    · have hopen : ¬ (t.getLast? == some '\n') = true := fun hend => hlast (htrailing.mp hend).2
      rw [if_neg hlast, if_neg hopen, List.map_append, List.map_singleton]

/-- A text is written again with its last part and with the same newline behind each closed part. -/
theorem render_ofText :
    (ofText t).render =
      (closed.map fun part => dropReturn part ++ writtenReturn t).flatMap (· ++ ['\n']) ++
        dropReturn last := by
  have hlines := lines_ofText h
  have htrailing := trailingNewline_ofText h
  have hmarked : (closed.map dropReturn).flatMap (· ++ (ofText t).newline) =
      (closed.map fun part => dropReturn part ++ writtenReturn t).flatMap (· ++ ['\n']) := by
    rw [newline_ofText, flatMap_append_mark, List.map_map]
    rfl
  unfold render
  rw [hlines]
  by_cases hlast : last = []
  · subst hlast
    rw [if_pos rfl]
    have hnil : dropReturn [] = [] := rfl
    rw [hnil, List.append_nil]
    by_cases hclosed : closed = []
    · rw [hclosed]
      rfl
    · rw [renderWith_of_trailing (htrailing.mpr ⟨hclosed, rfl⟩), hmarked]
  · have hopen : (ofText t).trailingNewline = false :=
      Bool.eq_false_iff.mpr fun hend => hlast (htrailing.mp hend).2
    rw [if_neg hlast, renderWith_snoc hopen, hmarked]

theorem writtenReturn_eq_nil_iff :
    writtenReturn t = [] ↔ ∀ part ∈ closed, part.getLast? ≠ some '\r' := by
  have hincludes : includes t ['\r', '\n'] = true ↔ ∃ part ∈ closed, part.getLast? = some '\r' := by
    rw [includes_pair_iff]
    constructor
    · rintro ⟨before, after, ht, hbefore⟩
      obtain ⟨part, hpart, hiff⟩ := exists_mem_closed h ht
      exact ⟨part, hpart, hiff.mp hbefore⟩
    · rintro ⟨part, hpart, hlast⟩
      obtain ⟨before, after, ht, hiff⟩ := exists_newline_of_mem_closed h hpart
      exact ⟨before, after, ht, hiff.mpr hlast⟩
  unfold writtenReturn
  split_ifs with hcase
  · obtain ⟨part, hpart, hlast⟩ := hincludes.mp hcase
    simpa using ⟨part, hpart, hlast⟩
  · simp only [true_iff]
    exact fun part hpart hlast => hcase (hincludes.mpr ⟨part, hpart, hlast⟩)

/-- The closed parts of a text come out as they are exactly if they end alike. -/
theorem forall_closed_iff :
    (∀ part ∈ closed, dropReturn part ++ writtenReturn t = part) ↔
      (∀ part ∈ closed, part.getLast? = some '\r') ∨
        ∀ part ∈ closed, part.getLast? ≠ some '\r' := by
  have hnil := writtenReturn_eq_nil_iff h
  by_cases hreturn : writtenReturn t = []
  · have hnone := hnil.mp hreturn
    refine iff_of_true (fun part hpart => ?_) (Or.inr hnone)
    rw [hreturn, List.append_nil, dropReturn_eq_self (hnone part hpart)]
  · have hmark : writtenReturn t = ['\r'] := by
      unfold writtenReturn at hreturn ⊢
      split_ifs at hreturn ⊢
      · rfl
      · exact absurd rfl hreturn
    rw [hmark]
    constructor
    · intro hsame
      refine Or.inl fun part hpart => ?_
      rw [← hsame part hpart]
      simp
    · rintro (hall | hnone) part hpart
      · exact dropReturn_append_return_eq (hall part hpart)
      · exact absurd (hnil.mpr hnone) hreturn

end Closed

theorem render_ofText_eq_iff (t : Text) : (ofText t).render = t ↔ HasUniformNewlines t := by
  obtain ⟨closed, last, h⟩ := exists_splitOn_eq '\n' t
  have ht := flatMap_append_of_splitOn h
  have hparts : (ofText t).render = t ↔
      (∀ part ∈ closed, dropReturn part ++ writtenReturn t = part) ∧ dropReturn last = last := by
    constructor
    · intro heq
      have hwritten : ∀ part ∈ closed.map fun part => dropReturn part ++ writtenReturn t,
          '\n' ∉ part := by
        intro part hpart
        obtain ⟨old, hold, rfl⟩ := List.mem_map.mp hpart
        have hfree : '\n' ∉ dropReturn old := not_mem_dropReturn (not_mem_of_mem_closed h hold)
        unfold writtenReturn
        split_ifs <;> simp [hfree]
      have hsplit := splitOn_flatMap_append hwritten (not_mem_dropReturn (not_mem_last h))
      rw [← render_ofText h, heq, h] at hsplit
      obtain ⟨hclosed, hlast⟩ := List.append_inj' hsplit rfl
      refine ⟨fun part hpart => ?_, (List.singleton_inj.mp hlast).symm⟩
      have hmap : closed.map id = closed.map fun part => dropReturn part ++ writtenReturn t := by
        rw [List.map_id]
        exact hclosed
      exact (List.map_inj_left.mp hmap part hpart).symm
    · rintro ⟨hclosed, hlast⟩
      rw [render_ofText h, List.map_congr_left hclosed, List.map_id', hlast, ht]
  rw [hparts, forall_closed_iff h, hasUniformNewlines_iff h, dropReturn_eq_self_iff]

/-- A line that is read back as it is where it is written with the newline of a text behind it. -/
structure IsClosedLine (t line : Text) : Prop where
  newline_free : '\n' ∉ line
  dropReturn_eq : dropReturn (line ++ writtenReturn t) = line

/-- What is read of lines when no newline stands behind the last of them. -/
def openEnded (lines : List Text) : List Text :=
  match lines.getLast? with
  | none => []
  | some last => if last = [] then lines.dropLast else lines.dropLast ++ [dropReturn last]

theorem openEnded_snoc (lines : List Text) (last : Text) :
    openEnded (lines ++ [last]) = if last = [] then lines else lines ++ [dropReturn last] := by
  simp [openEnded]

/-- Without a newline behind the last line, the lines are read back exactly if that line is not
empty and does not end with a carriage return. -/
theorem openEnded_eq_self_iff (lines : List Text) :
    openEnded lines = lines ↔
      ∀ last, lines.getLast? = some last → last ≠ [] ∧ last.getLast? ≠ some '\r' := by
  cases lines using List.reverseRecOn with
  | nil => simp [openEnded]
  | append_singleton lines last =>
      rw [openEnded_snoc]
      by_cases hlast : last = []
      · simp [hlast]
      · simp [hlast, dropReturn_eq_self_iff]

theorem IsClosedLine.not_mem_marked {t line : Text} (h : IsClosedLine t line) :
    '\n' ∉ line ++ writtenReturn t := by
  have hfree := h.newline_free
  unfold writtenReturn
  split_ifs <;> simp [hfree]

/-- Lines written in the place of those of a text are read back if a newline closes them all, and up
to the end of the last one otherwise. -/
theorem lines_ofText_renderWith {t : Text} {lines : List Text}
    (hlines : ∀ line ∈ lines, '\n' ∉ line)
    (hclosed : ∀ line ∈ if (ofText t).trailingNewline then lines else lines.dropLast,
      IsClosedLine t line) :
    (ofText ((ofText t).renderWith lines)).lines =
      if (ofText t).trailingNewline then lines else openEnded lines := by
  -- The lines with a newline behind them lose the carriage return that they are written with.
  have hread : ∀ init : List Text, (∀ line ∈ init, IsClosedLine t line) →
      (init.map (· ++ writtenReturn t)).map dropReturn = init := by
    intro init hinit
    rw [List.map_map, List.map_congr_left (g := id) fun line hline => ?_, List.map_id]
    exact (hinit line hline).dropReturn_eq
  have hsplit : ∀ (init : List Text) (last : Text), (∀ line ∈ init, IsClosedLine t line) →
      '\n' ∉ last →
      splitOn '\n' (init.flatMap (· ++ (ofText t).newline) ++ last) =
        init.map (· ++ writtenReturn t) ++ [last] := by
    intro init last hinit hlast
    rw [newline_ofText, flatMap_append_mark]
    refine splitOn_flatMap_append ?_ hlast
    intro part hpart
    obtain ⟨line, hline, rfl⟩ := List.mem_map.mp hpart
    exact (hinit line hline).not_mem_marked
  cases htrailing : (ofText t).trailingNewline with
  | true =>
      rw [htrailing, if_pos rfl] at hclosed
      have hparts := hsplit lines [] hclosed (by simp)
      rw [renderWith_of_trailing htrailing, if_pos rfl, ← List.append_nil (lines.flatMap _),
        lines_ofText hparts, if_pos rfl, hread lines hclosed]
  | false =>
      rw [htrailing, if_neg Bool.false_ne_true] at hclosed
      rw [if_neg Bool.false_ne_true]
      cases lines using List.reverseRecOn with
      | nil => rfl
      | append_singleton init last =>
          rw [List.dropLast_concat] at hclosed
          have hlast : '\n' ∉ last := hlines last (by simp)
          rw [renderWith_snoc htrailing, lines_ofText (hsplit init last hclosed hlast),
            hread init hclosed, openEnded_snoc]

theorem isClosedLine_of_getLast?_ne {t line : Text} (hfree : '\n' ∉ line)
    (hlast : line.getLast? ≠ some '\r') : IsClosedLine t line where
  newline_free := hfree
  dropReturn_eq := by
    unfold writtenReturn
    by_cases hreturns : includes t ['\r', '\n'] = true
    · rw [if_pos hreturns]
      exact dropReturn_append_return line
    · rw [if_neg hreturns, List.append_nil]
      exact dropReturn_eq_self hlast

/-- Lines that can be told from their newlines are read back, up to the end of the last one. -/
theorem lines_ofText_renderWith_of_getLast?_ne {t : Text} {lines : List Text}
    (hlines : ∀ line ∈ lines, '\n' ∉ line ∧ line.getLast? ≠ some '\r') :
    (ofText ((ofText t).renderWith lines)).lines =
      if (ofText t).trailingNewline then lines else openEnded lines := by
  apply lines_ofText_renderWith
  · exact fun line hline => (hlines line hline).1
  · intro line hline
    have hmem : line ∈ lines := by
      split_ifs at hline
      · exact hline
      · exact List.dropLast_subset lines hline
    obtain ⟨hfree, hlast⟩ := hlines line hmem
    exact isClosedLine_of_getLast?_ne hfree hlast

/-- Splitting and writing undo each other exactly where they can. A text is written again as it was
if it is empty or its newlines are uniform. Lines that can be told from their newlines are read back
as they were unless the last of them is empty and has no newline behind it. -/
theorem render_and_lines_ofText_iff (t : Text) :
    ((ofText t).render = t ↔ t = [] ∨ HasUniformNewlines t) ∧
      ∀ lines : List Text, (∀ line ∈ lines, '\n' ∉ line ∧ line.getLast? ≠ some '\r') →
        ((ofText ((ofText t).renderWith lines)).lines = lines ↔
          lines = [] ∨ (ofText t).trailingNewline = true ∨
            ∃ last, lines.getLast? = some last ∧ last ≠ []) := by
  constructor
  · rw [render_ofText_eq_iff]
    constructor
    · exact Or.inr
    · rintro (rfl | huniform)
      · exact ⟨Or.inl (by simp), by simp⟩
      · exact huniform
  · intro lines hlines
    rw [lines_ofText_renderWith_of_getLast?_ne hlines]
    cases htrailing : (ofText t).trailingNewline with
    | true => simp
    | false =>
        rw [if_neg Bool.false_ne_true, openEnded_eq_self_iff]
        cases hlast : lines.getLast? with
        | none => simp [List.getLast?_eq_none_iff.mp hlast]
        | some last =>
            obtain ⟨-, hreturn⟩ := hlines last (List.mem_of_getLast? hlast)
            have hne : lines ≠ [] := List.ne_nil_of_mem (List.mem_of_getLast? hlast)
            simp [hne, hreturn]

theorem render_and_lines_ofText_iff_blankLine :
    let source := ofText "a\r\nb".toList
    source.render = "a\r\nb".toList ∧
      (ofText (source.renderWith [['x'], [], ['y']])).lines = [['x'], [], ['y']] ∧
      (ofText (source.renderWith [['x'], []])).lines ≠ [['x'], []] := by
  intro source
  obtain ⟨-, hlines⟩ := render_and_lines_ofText_iff "a\r\nb".toList
  refine ⟨by decide, ?_, ?_⟩
  · rw [hlines _ (by decide)]
    exact Or.inr (Or.inr ⟨['y'], rfl, by decide⟩)
  · rw [Ne, hlines _ (by decide)]
    rintro (hnil | htrailing | ⟨last, hlast, hne⟩)
    · cases hnil
    · revert htrailing
      decide
    · exact hne (Option.some.inj hlast).symm

theorem dropLast_sublist_of_snoc {kept lines : List Text} {last : Text}
    (h : kept.Sublist (lines ++ [last])) : kept.dropLast.Sublist lines := by
  obtain ⟨init, rest, rfl, hinit, hrest⟩ := List.sublist_append_iff.mp h
  rcases List.sublist_singleton.mp hrest with rfl | rfl
  · rw [List.append_nil]
    exact (List.dropLast_sublist init).trans hinit
  · rwa [List.dropLast_concat]

section OwnLines

variable {t : Text}

theorem exists_part_of_mem_lines {line : Text} (hline : line ∈ (ofText t).lines) :
    ∃ part ∈ splitOn '\n' t, line = dropReturn part := by
  obtain ⟨closed, last, h⟩ := exists_splitOn_eq '\n' t
  rw [lines_ofText h] at hline
  rw [h]
  split_ifs at hline
  · obtain ⟨part, hpart, rfl⟩ := List.mem_map.mp hline
    exact ⟨part, List.mem_append_left _ hpart, rfl⟩
  · rw [← List.map_singleton (f := dropReturn), ← List.map_append] at hline
    obtain ⟨part, hpart, rfl⟩ := List.mem_map.mp hline
    exact ⟨part, hpart, rfl⟩

theorem newline_not_mem_line {line : Text} (hline : line ∈ (ofText t).lines) : '\n' ∉ line := by
  obtain ⟨part, hpart, rfl⟩ := exists_part_of_mem_lines hline
  exact not_mem_dropReturn (not_mem_of_mem_splitOn hpart)

theorem isClosedLine_dropReturn {closed : List Text} {last part : Text}
    (h : splitOn '\n' t = closed ++ [last]) (hpart : part ∈ closed) :
    IsClosedLine t (dropReturn part) where
  newline_free := not_mem_dropReturn (not_mem_of_mem_closed h hpart)
  dropReturn_eq := by
    by_cases hnil : writtenReturn t = []
    · have hnone := (writtenReturn_eq_nil_iff h).mp hnil part hpart
      rw [hnil, List.append_nil, dropReturn_eq_self hnone, dropReturn_eq_self hnone]
    · unfold writtenReturn at hnil ⊢
      split_ifs at hnil ⊢
      · exact dropReturn_append_return _
      · exact absurd rfl hnil

/-- The lines of a text, but for a last one without a newline, are read back wherever they are
closed by a newline. -/
theorem isClosedLine_of_sublist {kept : List Text} (hsub : kept.Sublist (ofText t).lines)
    {line : Text}
    (hline : line ∈ if (ofText t).trailingNewline then kept else kept.dropLast) :
    IsClosedLine t line := by
  obtain ⟨closed, last, h⟩ := exists_splitOn_eq '\n' t
  have hclosed : ∀ line ∈ closed.map dropReturn, IsClosedLine t line := by
    intro line hline
    obtain ⟨part, hpart, rfl⟩ := List.mem_map.mp hline
    exact isClosedLine_dropReturn h hpart
  apply hclosed
  rw [lines_ofText h] at hsub
  by_cases hlast : last = []
  · rw [if_pos hlast] at hsub
    split_ifs at hline
    · exact hsub.subset hline
    · exact hsub.subset (List.dropLast_subset _ hline)
  · rw [if_neg hlast] at hsub
    have hopen : ¬ (ofText t).trailingNewline = true := fun hend =>
      hlast ((trailingNewline_ofText h).mp hend).2
    rw [if_neg hopen] at hline
    exact (dropLast_sublist_of_snoc hsub).subset hline

end OwnLines

end SourceLines

end LineLint
