import LineLint.Proofs.BlankedLines
import LineLint.Proofs.TextSplit

/-!
# Spans of comments

Blanking the comments line by line comes to one pass over the whole text: a comment starts at the
next mark that opens one, wherever the lines end, and stops behind the next mark that ends one. The
newlines between the lines are all that is kept of a comment.
-/

namespace LineLint

namespace MarkupComment

structure IsFirstPlace (part t : Text) (i place : Nat) : Prop where
  le : i ≤ place
  stands : part <+: t.drop place
  first : ∀ j, i ≤ j → j < place → ¬part <+: t.drop j

/-- The comments that a pass over the text finds from place `i` on, which lies outside of them. -/
inductive CommentsFrom (t : Text) : Nat → List Span → Prop
  | none {i : Nat} (h : ∀ j, i ≤ j → ¬"<!--".toList <+: t.drop j) : CommentsFrom t i []
  | closed {i start stop : Nat} {spans : List Span}
      (hstart : IsFirstPlace "<!--".toList t i start)
      (hstop : IsFirstPlace "-->".toList t (start + 4) stop)
      (h : CommentsFrom t (stop + 3) spans) : CommentsFrom t i (⟨start, stop + 3⟩ :: spans)
  | unclosed {i start : Nat} (hstart : IsFirstPlace "<!--".toList t i start)
      (h : ∀ j, start + 4 ≤ j → ¬"-->".toList <+: t.drop j) :
      CommentsFrom t i [⟨start, t.length⟩]

def fillFrom (i : Nat) (spans : List Span) (t : Text) : Text :=
  t.mapIdx fun k c => if ∃ s ∈ spans, s.start ≤ i + k ∧ i + k < s.stop then ' ' else c

variable {t rest front : Text} {spans : List Span} {i : Nat} {inside : Bool}

section Unique

variable {part : Text} {place place' : Nat}

theorem IsFirstPlace.unique (h : IsFirstPlace part t i place) (h' : IsFirstPlace part t i place') :
    place = place' := by
  rcases Nat.lt_trichotomy place place' with hlt | heq | hlt
  · exact absurd h.stands (h'.first place h.le hlt)
  · exact heq
  · exact absurd h'.stands (h.first place' h'.le hlt)

theorem CommentsFrom.unique {others : List Span} (h : CommentsFrom t i spans)
    (h' : CommentsFrom t i others) : spans = others := by
  induction h generalizing others with
  | none hnone =>
      cases h' with
      | none => rfl
      | closed hstart => exact absurd hstart.stands (hnone _ hstart.le)
      | unclosed hstart => exact absurd hstart.stands (hnone _ hstart.le)
  | closed hstart hstop _ ih =>
      cases h' with
      | none hnone => exact absurd hstart.stands (hnone _ hstart.le)
      | closed hstart' hstop' hrest' =>
          obtain rfl := hstart.unique hstart'
          obtain rfl := hstop.unique hstop'
          rw [ih hrest']
      | unclosed hstart' hopen =>
          obtain rfl := hstart.unique hstart'
          exact absurd hstop.stands (hopen _ hstop.le)
  | unclosed hstart hopen =>
      cases h' with
      | none hnone => exact absurd hstart.stands (hnone _ hstart.le)
      | closed hstart' hstop' =>
          obtain rfl := hstart.unique hstart'
          exact absurd hstop'.stands (hopen _ hstop'.le)
      | unclosed hstart' => rw [hstart.unique hstart']

end Unique

section Fill

theorem fillFrom_append (i : Nat) (spans : List Span) (front rest : Text) :
    fillFrom i spans (front ++ rest) =
      fillFrom i spans front ++ fillFrom (i + front.length) spans rest := by
  simp only [fillFrom, List.mapIdx_append, Nat.add_assoc, Nat.add_comm front.length]

theorem fillFrom_of_le (h : ∀ s ∈ spans, i + front.length ≤ s.start) :
    fillFrom i spans front = front := by
  refine List.ext_getElem (by simp [fillFrom]) fun k hk hk' => ?_
  have hnone : ¬∃ s ∈ spans, s.start ≤ i + k ∧ i + k < s.stop := by
    rintro ⟨s, hs, hstart, -⟩
    have hle := h s hs
    omega
  simp only [fillFrom, List.getElem_mapIdx, if_neg hnone]

theorem fillFrom_of_mem {s : Span} (hs : s ∈ spans) (hstart : s.start ≤ i)
    (hstop : i + front.length ≤ s.stop) :
    fillFrom i spans front = List.replicate front.length ' ' := by
  refine List.ext_getElem (by simp [fillFrom]) fun k hk hk' => ?_
  have hlt : k < front.length := by simpa [fillFrom] using hk
  have hholds : ∃ s ∈ spans, s.start ≤ i + k ∧ i + k < s.stop := ⟨s, hs, by omega, by omega⟩
  simp only [fillFrom, List.getElem_mapIdx, if_pos hholds, List.getElem_replicate]

/-- A span that lies ahead of the text makes no difference to it. -/
theorem fillFrom_cons_of_stop_le {s : Span} (h : s.stop ≤ i) (spans : List Span) (t : Text) :
    fillFrom i (s :: spans) t = fillFrom i spans t := by
  refine List.mapIdx_eq_mapIdx_iff.mpr fun k hk => ?_
  have hsame : (∃ u ∈ s :: spans, u.start ≤ i + k ∧ i + k < u.stop) ↔
      ∃ u ∈ spans, u.start ≤ i + k ∧ i + k < u.stop := by
    simp only [List.exists_mem_cons_iff, or_iff_right_iff_imp]
    omega
  simp only [hsame]

end Fill

section Pass

/-- A part that does not stand at a place stands first where it does from the next place on. -/
theorem IsFirstPlace.of_succ {part : Text} {place : Nat} (h : IsFirstPlace part t (i + 1) place)
    (hnot : ¬part <+: t.drop i) : IsFirstPlace part t i place where
  le := Nat.le_of_succ_le h.le
  stands := h.stands
  first j hj hlt := by
    rcases Nat.eq_or_lt_of_le hj with rfl | hj
    · exact hnot
    · exact h.first j hj hlt

/-- What is left of a text holds a part nowhere, or the part stands at a first place in it. -/
theorem nowhere_or_isFirstPlace (part : Text) (h : t.drop i = rest) :
    (∀ j, i ≤ j → ¬part <+: t.drop j) ∨ ∃ front after, rest = front ++ (part ++ after) ∧
      IsFirstPlace part t i (i + front.length) := by
  induction rest generalizing i with
  | nil =>
      by_cases hpart : part = []
      · refine Or.inr ⟨[], [], by simp [hpart], Nat.le_refl i, by simp [hpart], ?_⟩
        exact fun j hij hji => absurd hji (Nat.not_lt_of_ge hij)
      · left
        intro j hj hstands
        have hnil : t.drop j = [] := by
          rw [List.drop_eq_nil_iff] at h ⊢
          omega
        rw [hnil, List.prefix_nil] at hstands
        exact hpart hstands
  | cons c rest ih =>
      by_cases hstands : part <+: t.drop i
      · obtain ⟨after, hafter⟩ := hstands
        refine Or.inr ⟨[], after, by rw [← h, hafter]; rfl, Nat.le_refl i, ⟨after, hafter⟩, ?_⟩
        exact fun j hij hji => absurd hji (Nat.not_lt_of_ge hij)
      · have hnext : t.drop (i + 1) = rest := by rw [← List.drop_drop, h]; rfl
        rcases ih hnext with hnone | ⟨front, after, hrest, hfirst⟩
        · left
          intro j hj
          rcases Nat.eq_or_lt_of_le hj with rfl | hj
          · exact hstands
          · exact hnone j hj
        · have hplace : i + 1 + front.length = i + (c :: front).length := by
            rw [List.length_cons]
            omega
          rw [hplace] at hfirst
          exact Or.inr ⟨c :: front, after, by rw [hrest]; rfl, hfirst.of_succ hstands⟩

theorem drop_add_length (front : Text) (h : t.drop i = front ++ rest) :
    t.drop (i + front.length) = rest := by
  rw [← List.drop_drop, h, List.drop_left]

/-- What stands before the first mark is shown or blanked, and so is all if there is none. -/
theorem fst_blankLine_append (h : t.drop i = front ++ rest)
    (hfirst : ∀ j, i ≤ j → j < i + front.length → ¬mark inside <+: t.drop j) :
    (blankLine inside (front ++ rest)).1 =
      front.map (shown inside) ++ (blankLine inside rest).1 := by
  rw [blankLine_append_of_no_mark fun k hk => ?_]
  rw [← h, List.drop_drop]
  exact hfirst (i + k) (Nat.le_add_right i k) (Nat.add_lt_add_left hk i)

theorem fst_blankLine_of_nowhere (h : t.drop i = rest)
    (hnone : ∀ j, i ≤ j → ¬mark inside <+: t.drop j) :
    (blankLine inside rest).1 = rest.map (shown inside) := by
  have hall : (blankLine inside (rest ++ [])).1 =
      rest.map (shown inside) ++ (blankLine inside []).1 :=
    fst_blankLine_append (by rw [h, List.append_nil]) fun j hj _ => hnone j hj
  simpa using hall

theorem map_shown_false (t : Text) : t.map (shown false) = t := List.map_id t

theorem map_shown_true (t : Text) : t.map (shown true) = List.replicate t.length ' ' := by
  rw [← List.map_const']
  rfl

section Comment

variable {before inner comment after : Text}

theorem fst_blankLine_unclosed (h : t.drop i = before ++ (mark false ++ inner))
    (hstart : IsFirstPlace (mark false) t i (i + before.length))
    (hopen : ∀ j, i + before.length + 4 ≤ j → ¬mark true <+: t.drop j) :
    (blankLine false (before ++ (mark false ++ inner))).1 =
      before ++ List.replicate (mark false ++ inner).length ' ' := by
  have hinner : t.drop (i + before.length + 4) = inner :=
    drop_add_length (mark false) (drop_add_length _ h)
  rw [fst_blankLine_append h hstart.first, blankLine_mark, map_shown_false, Bool.not_false,
    fst_blankLine_of_nowhere hinner hopen, map_shown_true, List.replicate_append_replicate,
    List.length_append]

theorem fst_blankLine_closed
    (h : t.drop i = before ++ (mark false ++ (comment ++ (mark true ++ after))))
    (hstart : IsFirstPlace (mark false) t i (i + before.length))
    (hstop : IsFirstPlace (mark true) t (i + before.length + 4)
      (i + before.length + 4 + comment.length)) :
    (blankLine false (before ++ (mark false ++ (comment ++ (mark true ++ after))))).1 =
      before ++ List.replicate (mark false ++ (comment ++ mark true)).length ' ' ++
        (blankLine false after).1 := by
  have hinner : t.drop (i + before.length + 4) = comment ++ (mark true ++ after) :=
    drop_add_length (mark false) (drop_add_length _ h)
  rw [fst_blankLine_append h hstart.first, blankLine_mark, map_shown_false, Bool.not_false,
    fst_blankLine_append hinner hstop.first, map_shown_true, blankLine_mark, Bool.not_true]
  simp only [List.length_append, List.replicate_add, List.append_assoc]

end Comment

/-- A span from behind some text on leaves that text as it is and blanks what it holds. -/
theorem fillFrom_append_of_mem {s : Span} (hs : s ∈ spans) (hstart : s.start = i + front.length)
    (hstop : s.start + rest.length ≤ s.stop) (hle : ∀ s ∈ spans, i + front.length ≤ s.start) :
    fillFrom i spans (front ++ rest) = front ++ List.replicate rest.length ' ' := by
  rw [fillFrom_append, fillFrom_of_le hle,
    fillFrom_of_mem hs (Nat.le_of_eq hstart) (by rw [← hstart]; exact hstop)]

/-- The pass finds comments, and just these are blanked. -/
theorem exists_commentsFrom (h : t.drop i = rest) :
    ∃ spans, CommentsFrom t i spans ∧ (∀ s ∈ spans, i ≤ s.start) ∧
      (blankLine false rest).1 = fillFrom i spans rest := by
  induction hn : rest.length using Nat.strongRecOn generalizing i rest with
  | ind n ih =>
      rcases nowhere_or_isFirstPlace (mark false) h with hnone | ⟨before, inner, rfl, hstart⟩
      · refine ⟨[], .none hnone, List.forall_mem_nil _, ?_⟩
        rw [fst_blankLine_of_nowhere h hnone, map_shown_false,
          fillFrom_of_le (List.forall_mem_nil _)]
      · have hinner : t.drop (i + before.length + 4) = inner :=
          drop_add_length (mark false) (drop_add_length _ h)
        rcases nowhere_or_isFirstPlace (mark true) hinner with hopen | ⟨comment, after, rfl, hstop⟩
        · have hlength : i + before.length + (mark false ++ inner).length = t.length := by
            have hcut := congrArg List.length (drop_add_length _ h)
            rw [List.length_drop] at hcut
            have hmark : (mark false ++ inner).length = 4 + inner.length := List.length_append
            omega
          refine ⟨[⟨i + before.length, t.length⟩], .unclosed hstart hopen, by simp, ?_⟩
          rw [fst_blankLine_unclosed h hstart hopen, fillFrom_append_of_mem
            (List.mem_singleton_self _) rfl (Nat.le_of_eq hlength) (by simp)]
        · let stop := i + before.length + 4 + comment.length + 3
          have hafter : t.drop stop = after :=
            drop_add_length (mark true) (drop_add_length _ hinner)
          have hbody :
              i + before.length + (mark false ++ (comment ++ mark true)).length = stop := by
            simp only [List.length_append, stop]
            rw [show (mark false).length = 4 from rfl, show (mark true).length = 3 from rfl]
            omega
          have hwhole : i + (before ++ (mark false ++ (comment ++ mark true))).length = stop := by
            rw [List.length_append, ← Nat.add_assoc, hbody]
          have hshort : after.length < n := by
            rw [← hn]
            simp only [List.length_append]
            rw [show (mark false).length = 4 from rfl]
            omega
          obtain ⟨spans, hspans, hle, hblank⟩ := ih _ hshort hafter rfl
          have hbehind : ∀ s ∈ ⟨i + before.length, stop⟩ :: spans,
              i + before.length ≤ s.start := by
            refine List.forall_mem_cons.mpr ⟨Nat.le_refl _, fun s hs => ?_⟩
            exact Nat.le_trans (by omega) (hle s hs)
          refine ⟨_, .closed hstart hstop hspans, fun s hs => ?_, ?_⟩
          · exact Nat.le_trans (Nat.le_add_right i _) (hbehind s hs)
          · have hsplit : before ++ (mark false ++ (comment ++ (mark true ++ after))) =
                before ++ (mark false ++ (comment ++ mark true)) ++ after := by
              simp only [List.append_assoc]
            rw [fst_blankLine_closed h hstart hstop, hsplit, fillFrom_append,
              fillFrom_append_of_mem List.mem_cons_self rfl (Nat.le_of_eq hbody) hbehind, hwhole,
              hblank]
            rw [fillFrom_cons_of_stop_le (Nat.le_refl stop)]

end Pass

section Lines

def keepNewlines (t blanked : Text) : Text :=
  List.zipWith (fun c shown => if c = '\n' then c else shown) t blanked

theorem newline_notMem_mark (inside : Bool) : '\n' ∉ mark inside := by
  cases inside <;> decide

theorem keepNewlines_of_notMem {line blanked : Text} (hlength : blanked.length = line.length)
    (hline : '\n' ∉ line) : keepNewlines line blanked = blanked := by
  induction line generalizing blanked with
  | nil =>
      rw [List.length_eq_zero_iff.mp hlength]
      rfl
  | cons c line ih =>
      obtain ⟨hc, hline⟩ := List.ne_and_not_mem_of_not_mem_cons hline
      cases blanked with
      | nil => cases hlength
      | cons shown blanked =>
          have hrest := ih (Nat.succ.inj hlength) hline
          rw [keepNewlines] at hrest ⊢
          rw [List.zipWith_cons_cons, if_neg hc.symm, hrest]

theorem length_blankFrom_lines (inside : Bool) (lines : List Text) :
    (blankFrom inside lines).map List.length = lines.map List.length := by
  induction lines generalizing inside with
  | nil => rfl
  | cons line rest ih =>
      rw [blankFrom_cons, List.map_cons, List.map_cons, ih, length_blankLine]

theorem keepNewlines_append_cons {line blanked : Text} (hlength : blanked.length = line.length)
    (rest more : Text) (c : Char) :
    keepNewlines (line ++ '\n' :: rest) (blanked ++ c :: more) =
      keepNewlines line blanked ++ '\n' :: keepNewlines rest more := by
  rw [keepNewlines, List.zipWith_append hlength.symm]
  rfl

theorem keepNewlines_fillFrom (t : Text) (spans : List Span) :
    keepNewlines t (fillFrom 0 spans t) = t.mapIdx fun i c =>
      if c ≠ '\n' ∧ ∃ s ∈ spans, s.start ≤ i ∧ i < s.stop then ' ' else c := by
  refine List.ext_getElem (by simp [keepNewlines, fillFrom]) fun i hi hi' => ?_
  simp only [keepNewlines, fillFrom, List.getElem_zipWith, List.getElem_mapIdx, Nat.zero_add]
  split_ifs <;> simp_all

/-- Lines that are blanked one after the other are the joined text, blanked at once. -/
theorem joinWith_blankFrom {lines : List Text} (h : ∀ line ∈ lines, '\n' ∉ line) :
    Text.joinWith ['\n'] (blankFrom inside lines) =
      keepNewlines (Text.joinWith ['\n'] lines)
        (blankLine inside (Text.joinWith ['\n'] lines)).1 := by
  induction lines generalizing inside with
  | nil => cases inside <;> rfl
  | cons line rest ih =>
      obtain ⟨hline, hrest⟩ := List.forall_mem_cons.mp h
      have hown : keepNewlines line (blankLine inside line).1 = (blankLine inside line).1 :=
        keepNewlines_of_notMem (length_blankLine inside line) hline
      cases rest with
      | nil =>
          have hsingle (t : Text) : Text.joinWith ['\n'] [t] = t := by
            rw [Text.joinWith_cons, List.flatMap_nil, List.append_nil]
          rw [blankFrom_cons, blankFrom, hsingle, hsingle, hown]
      | cons next rest =>
          have hjoin (t next : Text) (rest : List Text) :
              Text.joinWith ['\n'] (t :: next :: rest) =
                t ++ '\n' :: Text.joinWith ['\n'] (next :: rest) := by
            rw [Text.joinWith_cons, Text.joinWith_cons, List.flatMap_cons, List.append_assoc]
            rfl
          have hlater := @ih (blankLine inside line).2 hrest
          rw [blankFrom_cons] at hlater
          rw [blankFrom_cons, blankFrom_cons, hjoin, hlater, hjoin,
            blankLine_append_cons newline_notMem_mark,
            blankLine_cons_of_notMem (newline_notMem_mark _),
            keepNewlines_append_cons (length_blankLine inside line), hown]

end Lines

/-- Blanking the comments of lines keeps the length of each, and puts a space for each character
but the newlines that one pass over the whole text finds in a comment. -/
theorem blank_eq_fill {lines : List Text} (h : ∀ line ∈ lines, '\n' ∉ line) :
    (blank lines).map List.length = lines.map List.length ∧
      ∃ spans, (∀ others, CommentsFrom (Text.joinWith ['\n'] lines) 0 others ↔ others = spans) ∧
        Text.joinWith ['\n'] (blank lines) = (Text.joinWith ['\n'] lines).mapIdx fun i c =>
          if c ≠ '\n' ∧ ∃ s ∈ spans, s.start ≤ i ∧ i < s.stop then ' ' else c := by
  refine ⟨length_blankFrom_lines false lines, ?_⟩
  obtain ⟨spans, hspans, -, hblank⟩ :=
    exists_commentsFrom (List.drop_zero : (Text.joinWith ['\n'] lines).drop 0 = _)
  refine ⟨spans, fun others => ⟨fun hothers => hothers.unique hspans, ?_⟩, ?_⟩
  · rintro rfl
    exact hspans
  · rw [blank, joinWith_blankFrom h, hblank, keepNewlines_fillFrom]

def commentedLines : List Text :=
  ["<p>a</p> <!-- start", "<DIV>", "end --> <b>x</b><!-->", "y-->z"].map String.toList

theorem blank_eq_fill_commentedLines :
    (∀ line ∈ commentedLines, '\n' ∉ line) ∧
      blank commentedLines = ["<p>a</p>           ", "     ", "        <b>x</b>     ",
        "    z"].map String.toList ∧
      ∃ spans, (∀ others, CommentsFrom (Text.joinWith ['\n'] commentedLines) 0 others ↔
          others = spans) ∧
        Text.joinWith ['\n'] (blank commentedLines) =
          (Text.joinWith ['\n'] commentedLines).mapIdx fun i c =>
            if c ≠ '\n' ∧ ∃ s ∈ spans, s.start ≤ i ∧ i < s.stop then ' ' else c :=
  have hlines : ∀ line ∈ commentedLines, '\n' ∉ line := by decide
  ⟨hlines, by decide, (blank_eq_fill hlines).2⟩

end MarkupComment

end LineLint
