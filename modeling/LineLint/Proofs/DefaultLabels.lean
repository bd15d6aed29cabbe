import LineLint.Proofs.CharacterClasses
import LineLint.Proofs.PatternPlaces
import LineLint.Proofs.ScannedText
import LineLint.Proofs.SoundStatements

/-!
# Default labels

The scan of a scope knows the depth of braces at the starts of its lines only. A switch is therefore
reported unless a default label is the first code on a line of its scope, at the depth of the scope
and behind the line of the switch. A label behind other code, or on the first line, goes unseen.
-/

namespace LineLint

namespace LineScan

def braceDepth (t : Text) : Int := Int.ofNat (t.count '{') - Int.ofNat (t.count '}')

/-- A scope that begins with the text ends in it: behind the first opening brace, a closing one
takes the depth back to 0. -/
def EndsScope (t : Text) : Prop := ∃ q, q ++ ['}'] <+: t ∧ '{' ∈ q ∧ braceDepth q = 1

section Braces

variable {s : BraceState} {a b t : Text} {c : Char}

theorem braceDepth_nil : braceDepth [] = 0 := rfl

theorem braceDepth_open (t : Text) : braceDepth ('{' :: t) = braceDepth t + 1 := by
  simp [braceDepth]
  omega

theorem braceDepth_close (t : Text) : braceDepth ('}' :: t) = braceDepth t - 1 := by
  simp [braceDepth]
  omega

theorem braceDepth_cons_of_ne (hopen : c ≠ '{') (hclose : c ≠ '}') (t : Text) :
    braceDepth (c :: t) = braceDepth t := by
  simp [braceDepth, hopen, hclose]

theorem afterBraces_open (s : BraceState) (t : Text) :
    afterBraces s ('{' :: t) =
      afterBraces { s with depth := s.depth + 1, isOpen := true } t := rfl

theorem afterBraces_close_of_ends (h : s.isOpen = true ∧ s.depth = 1) (t : Text) :
    afterBraces s ('}' :: t) = { s with depth := 0, isClosed := true } := by
  simp [afterBraces, h.1, h.2]

theorem afterBraces_close_of_not_ends (h : ¬(s.isOpen = true ∧ s.depth = 1)) (t : Text) :
    afterBraces s ('}' :: t) = afterBraces { s with depth := s.depth - 1 } t := by
  have hends : ¬(s.isOpen && s.depth - 1 == 0) = true := by
    rw [Bool.and_eq_true, beq_iff_eq, Int.sub_eq_zero]
    exact h
  exact if_neg hends

theorem afterBraces_cons_of_ne (hopen : c ≠ '{') (hclose : c ≠ '}') (s : BraceState) (t : Text) :
    afterBraces s (c :: t) = afterBraces s t := by
  simp [afterBraces, hopen, hclose]

theorem braces_induction {P : BraceState → Text → Prop} (nil : ∀ s, P s [])
    (opens : ∀ s t, P { s with depth := s.depth + 1, isOpen := true } t → P s ('{' :: t))
    (ends : ∀ s t, s.isOpen = true ∧ s.depth = 1 → P s ('}' :: t))
    (closes : ∀ s t, ¬(s.isOpen = true ∧ s.depth = 1) → P { s with depth := s.depth - 1 } t →
      P s ('}' :: t))
    (passes : ∀ s c t, c ≠ '{' → c ≠ '}' → P s t → P s (c :: t)) (s : BraceState) (t : Text) :
    P s t := by
  induction t generalizing s with
  | nil => exact nil s
  | cons c t ih =>
      by_cases hopen : c = '{'
      · exact hopen ▸ opens s t (ih _)
      by_cases hclose : c = '}'
      · subst hclose
        by_cases hends : s.isOpen = true ∧ s.depth = 1
        · exact ends s t hends
        · exact closes s t hends (ih _)
      · exact passes s c t hopen hclose (ih s)

theorem exists_snoc_prefix_cons_iff {x : Char} {P : Text → Prop} :
    (∃ q, q ++ [x] <+: c :: t ∧ P q) ↔ (c = x ∧ P []) ∨ ∃ q, q ++ [x] <+: t ∧ P (c :: q) := by
  constructor
  · rintro ⟨q, hq, hP⟩
    cases q with
    | nil => exact Or.inl ⟨(List.cons_prefix_cons.mp hq).1.symm, hP⟩
    | cons y q =>
        rw [List.cons_append, List.cons_prefix_cons] at hq
        exact Or.inr ⟨q, hq.2, hq.1 ▸ hP⟩
  · rintro (⟨rfl, hP⟩ | ⟨q, hq, hP⟩)
    · exact ⟨[], by simp, hP⟩
    · exact ⟨c :: q, List.cons_prefix_cons.mpr ⟨rfl, hq⟩, hP⟩

theorem isClosed_afterBraces_iff (s : BraceState) (t : Text) (hs : s.isClosed = false) :
    (afterBraces s t).isClosed = true ↔
      ∃ q, q ++ ['}'] <+: t ∧ (s.isOpen = true ∨ '{' ∈ q) ∧ s.depth + braceDepth q = 1 := by
  induction s, t using braces_induction with
  | nil s => simp [afterBraces, hs]
  | opens s t ih =>
      rw [exists_snoc_prefix_cons_iff, afterBraces_open, ih hs]
      simp [braceDepth_open, Int.add_assoc, Int.add_comm 1]
  | ends s t hends =>
      rw [exists_snoc_prefix_cons_iff, afterBraces_close_of_ends hends]
      simp [hends, braceDepth_nil]
  | closes s t hends ih =>
      have hdepth (n : Int) : s.depth - 1 + n = s.depth + (n - 1) := by omega
      rw [exists_snoc_prefix_cons_iff, afterBraces_close_of_not_ends hends, ih hs]
      simp [braceDepth_close, braceDepth_nil, hends, hdepth]
  | passes s c t hopen hclose ih =>
      rw [exists_snoc_prefix_cons_iff, afterBraces_cons_of_ne hopen hclose, ih hs]
      simp [hclose, hopen.symm, braceDepth_cons_of_ne hopen hclose]

theorem depth_afterBraces (s : BraceState) (t : Text) (h : (afterBraces s t).isClosed = false) :
    (afterBraces s t).depth = s.depth + braceDepth t := by
  induction s, t using braces_induction with
  | nil s => exact (Int.add_zero s.depth).symm
  | opens s t ih =>
      rw [afterBraces_open] at h ⊢
      rw [ih h, braceDepth_open]
      dsimp only
      omega
  | ends s t hends => simp [afterBraces_close_of_ends hends] at h
  | closes s t hends ih =>
      rw [afterBraces_close_of_not_ends hends] at h ⊢
      rw [ih h, braceDepth_close]
      dsimp only
      omega
  | passes s c t hopen hclose ih =>
      rw [afterBraces_cons_of_ne hopen hclose] at h ⊢
      rw [ih h, braceDepth_cons_of_ne hopen hclose]

theorem afterBraces_append (s : BraceState) (a b : Text) (h : (afterBraces s a).isClosed = false) :
    afterBraces s (a ++ b) = afterBraces (afterBraces s a) b := by
  induction s, a using braces_induction with
  | nil s => rfl
  | opens s a ih =>
      rw [afterBraces_open] at h
      exact ih h
  | ends s a hends => simp [afterBraces_close_of_ends hends] at h
  | closes s a hends ih =>
      rw [afterBraces_close_of_not_ends hends] at h
      rw [List.cons_append, afterBraces_close_of_not_ends hends, afterBraces_close_of_not_ends hends,
        ih h]
  | passes s c a hopen hclose ih =>
      rw [afterBraces_cons_of_ne hopen hclose] at h
      rw [List.cons_append, afterBraces_cons_of_ne hopen hclose, afterBraces_cons_of_ne hopen hclose,
        ih h]

theorem isClosed_afterBraces_start : (afterBraces {} t).isClosed = true ↔ EndsScope t := by
  simp [isClosed_afterBraces_iff {} t rfl, EndsScope]

theorem EndsScope.append (h : EndsScope a) (b : Text) : EndsScope (a ++ b) := by
  obtain ⟨q, hq, hopen, hdepth⟩ := h
  exact ⟨q, hq.trans (List.prefix_append a b), hopen, hdepth⟩

theorem not_mem_of_allBlank (hb : b.allBlank = true) (hc : isBlank c = false) : c ∉ b := by
  intro hmem
  rw [List.all_eq_true.mp hb c hmem] at hc
  cases hc

theorem braceDepth_append_of_allBlank (hb : b.allBlank = true) (a : Text) :
    braceDepth (a ++ b) = braceDepth a := by
  have hopen : b.count '{' = 0 := List.count_eq_zero.mpr (not_mem_of_allBlank hb (by decide))
  have hclose : b.count '}' = 0 := List.count_eq_zero.mpr (not_mem_of_allBlank hb (by decide))
  rw [braceDepth, List.count_append, List.count_append, hopen, hclose]
  rfl

theorem endsScope_append_iff_of_allBlank (hb : b.allBlank = true) :
    EndsScope (a ++ b) ↔ EndsScope a := by
  refine ⟨fun ⟨q, hq, hopen, hdepth⟩ => ?_, fun h => h.append b⟩
  rcases Text.prefix_append_cases hq with hq | ⟨v, hv, hfront⟩
  · exact ⟨q, hq, hopen, hdepth⟩
  · rcases List.eq_nil_or_concat v with rfl | ⟨front, x, rfl⟩
    · exact ⟨q, ⟨[], by rw [hv, List.append_nil, List.append_nil]⟩, hopen, hdepth⟩
    · rw [List.concat_eq_append, ← List.append_assoc] at hv
      obtain rfl : '}' = x := by simpa using (List.append_inj' hv rfl).2
      exact absurd (hfront.subset (by simp : '}' ∈ front.concat '}'))
        (not_mem_of_allBlank hb (by decide))

end Braces

section Scopes

variable {style : LiteralStyle} {lines rest : List Text} {before : Text} {offset k : Nat}

def codeBefore (style : LiteralStyle) (lines : List Text) (offset : Nat) : Text :=
  ((lines.take offset).map style.codeMask).flatten

theorem codeBefore_zero (style : LiteralStyle) (lines : List Text) :
    codeBefore style lines 0 = [] := rfl

theorem codeBefore_succ (style : LiteralStyle) (line : Text) (rest : List Text) (offset : Nat) :
    codeBefore style (line :: rest) (offset + 1) =
      style.codeMask line ++ codeBefore style rest offset := rfl

/-- The scan of a scope that is closed visits the lines that begin in it, with their depths. -/
theorem mem_visited_scopeFrom_iff {o : Nat} {d : Int}
    (hbefore : (afterBraces {} before).isClosed = false)
    (hclose : (scopeFrom style offset (afterBraces {} before) rest).close = some k) :
    (o, d) ∈ (scopeFrom style offset (afterBraces {} before) rest).visited ↔
      ∃ i, o = offset + i ∧ i < rest.length ∧ ¬EndsScope (before ++ codeBefore style rest i) ∧
        d = braceDepth (before ++ codeBefore style rest i) := by
  induction rest generalizing offset before with
  | nil => cases hclose
  | cons line rest ih =>
      have hdepth : (afterBraces {} before).depth = braceDepth before :=
        (depth_afterBraces {} before hbefore).trans (Int.zero_add _)
      have hinside : ¬EndsScope before := by
        rw [← isClosed_afterBraces_start, hbefore]
        exact Bool.false_ne_true
      have hnext : afterBraces (afterBraces {} before) (style.codeMask line) =
          afterBraces {} (before ++ style.codeMask line) :=
        (afterBraces_append {} before _ hbefore).symm
      have hindices {P : Nat → Prop} :
          (∃ i, o = offset + i ∧ i < (line :: rest).length ∧ P i) ↔
            (o = offset ∧ P 0) ∨ ∃ i, o = offset + 1 + i ∧ i < rest.length ∧ P (i + 1) := by
        constructor
        · rintro ⟨i, rfl, hi, hP⟩
          cases i with
          | zero => exact Or.inl ⟨rfl, hP⟩
          | succ i =>
              exact Or.inr ⟨i, by omega, Nat.lt_of_succ_lt_succ hi, hP⟩
        · rintro (⟨rfl, hP⟩ | ⟨i, rfl, hi, hP⟩)
          · exact ⟨0, rfl, Nat.zero_lt_succ _, hP⟩
          · exact ⟨i + 1, by omega, Nat.succ_lt_succ hi, hP⟩
      rw [hindices]
      simp only [codeBefore_zero, codeBefore_succ, ← List.append_assoc, List.append_nil]
      rw [scopeFrom, hnext] at hclose ⊢
      dsimp only at hclose ⊢
      rw [hdepth] at hclose ⊢
      split_ifs at hclose ⊢ with hends hstops
      · have hdone (i : Nat) :
            EndsScope (before ++ style.codeMask line ++ codeBefore style rest i) :=
          (isClosed_afterBraces_start.mp hends).append _
        simp [hinside, hdone, -List.append_assoc]
      · have hcount := ih (Bool.eq_false_iff.mpr hends) hclose
        simp [hinside, hcount]

/-- The lines that begin in a scope, as the rules ask for them. -/
theorem mem_visited_scopeAt_iff {index o : Nat} {d : Int}
    (hclose : (scopeAt style lines index).close = some k) :
    (o, d) ∈ (scopeAt style lines index).visited ↔
      o < ((lines.drop index).take scopeWindow).length ∧
        ¬EndsScope (codeBefore style ((lines.drop index).take scopeWindow) o) ∧
          d = braceDepth (codeBefore style ((lines.drop index).take scopeWindow) o) := by
  have hvisited := @mem_visited_scopeFrom_iff style _ [] 0 k o d rfl hclose
  simp only [List.nil_append, Nat.zero_add] at hvisited
  exact hvisited.trans ⟨fun ⟨i, hi, h⟩ => hi ▸ h, fun h => ⟨o, rfl, h⟩⟩

end Scopes

end LineScan

namespace Rule

def Reports (r : Rule) (lines : List Text) (i : Nat) : Prop :=
  ∃ ds, r.run lines = .ok ds ∧ ∃ d ∈ ds, d.line = i + 1

theorem reports_ofCheck_iff {spec : Spec} {info : RuleInfo} {check : List Text → List Finding}
    (hsound : (ofCheck spec info check).IsSound) {lines : List Text} {i : Nat} :
    (ofCheck spec info check).Reports lines i ↔ ∃ f ∈ check lines, f.index = i := by
  constructor
  · rintro ⟨ds, hrun, d, hd, hline⟩
    obtain ⟨f, hf, hreport⟩ := (mem_iff_of_run_ofCheck hrun).mp hd
    have hat := (Spec.report_eq_ok hreport).1
    exact ⟨f, hf, by omega⟩
  · rintro ⟨f, hf, rfl⟩
    obtain ⟨ds, hrun⟩ := hsound.runs lines
    obtain ⟨d, hd, hreport⟩ := exists_mem_of_found hrun rfl hf
    exact ⟨ds, hrun, d, hd, (Spec.report_eq_ok hreport).1⟩

end Rule

namespace Pattern

variable {c d : Cursor} {t rest : Text} {ps : List Pattern} {p : Pattern}

theorem exists_mem_textPattern (hrest : c.rest = t ++ rest) :
    ∃ d ∈ (textPattern t).results c, Cursor.Passes t c d := by
  induction t generalizing c with
  | nil => exact ⟨c, List.mem_singleton_self c, Cursor.Passes.refl c⟩
  | cons x t ih =>
      obtain ⟨e, he, hfirst⟩ := Cursor.passes_step? (p := (· == x)) (beq_self_eq_true x) hrest
      obtain ⟨d, hd, hmore⟩ := ih (hfirst.rest_eq hrest)
      exact ⟨d, mem_results_append_iff.mpr ⟨e, Option.mem_toList.mpr he, hd⟩, hfirst.trans hmore⟩

theorem mem_results_choice_of_mem (hp : p ∈ ps) (hd : d ∈ p.results c) :
    d ∈ (choice ps).results c := by
  induction ps with
  | nil => cases hp
  | cons q qs ih =>
      cases qs with
      | nil => exact List.mem_singleton.mp hp ▸ hd
      | cons q' qs =>
          refine List.mem_append.mpr ?_
          rcases List.mem_cons.mp hp with rfl | hp
          · exact Or.inl hd
          · exact Or.inr (ih hp)

end Pattern

namespace SwitchDefault

open LineScan

variable {style : LiteralStyle} {lines : List Text} {index : Nat} {t : Text}

def StartsLabel (t : Text) : Prop :=
  ∃ gap mark after : Text, t = "default".toList ++ gap ++ mark ++ after ∧ gap.allBlank = true ∧
    mark ∈ [":", "->"].map String.toList

/-- A default label in the scope that begins with the first of some lines: a word of its own, at the
depth of the scope. -/
structure IsDefaultLabel (style : LiteralStyle) (scope : List Text) (offset : Nat)
    (before : Text) : Prop where
  written : ∃ line rest, scope[offset]? = some line ∧ style.codeMask line = before ++ rest ∧
    StartsLabel rest
  word : ∀ c ∈ before.getLast?, isWordChar c = false
  depth : braceDepth (codeBefore style scope offset ++ before) = 1
  inside : ¬EndsScope (codeBefore style scope offset ++ before)

theorem matchesStart_defaultLabel_iff : defaultLabel.matchesStart t = true ↔ StartsLabel t := by
  rw [Pattern.matchesStart_iff]
  constructor
  · rintro ⟨d, hd⟩
    obtain ⟨behindGap, hgap, hmark⟩ := Pattern.mem_results_append_iff.mp hd
    obtain ⟨behindWord, hword, hgap⟩ := Pattern.mem_results_append_iff.mp hgap
    obtain ⟨atStart, hstart, hword⟩ := Pattern.mem_results_append_iff.mp hword
    obtain rfl := Pattern.eq_of_mem_edge hstart
    obtain ⟨gap, hpasses⟩ := Pattern.passes_of_mem_results hgap
    obtain ⟨p, hp, hmark⟩ := Pattern.mem_results_choice hmark
    obtain ⟨mark, hmem, rfl⟩ := List.mem_map.mp hp
    have ht : t = "default".toList ++ (gap ++ (mark.toList ++ d.rest)) := by
      rw [← (Pattern.passes_of_mem_textPattern hmark).rest, ← hpasses.rest]
      exact (Pattern.passes_of_mem_textPattern hword).rest
    exact ⟨gap, mark.toList, d.rest, by rw [ht, List.append_assoc, List.append_assoc],
      List.all_eq_true.mpr (Pattern.forall_of_mem_star_one hgap hpasses),
      List.mem_map_of_mem hmem⟩
  · rintro ⟨gap, mark, after, rfl, hgap, hmark⟩
    obtain ⟨mark, hmem, rfl⟩ := List.mem_map.mp hmark
    rw [List.append_assoc, List.append_assoc]
    obtain ⟨behindWord, hword, hpasses⟩ := Pattern.exists_mem_textPattern
      (c := Cursor.atStart ("default".toList ++ (gap ++ (mark.toList ++ after)))) rfl
    have hrest : behindWord.rest = gap ++ (mark.toList ++ after) := hpasses.rest_eq rfl
    obtain ⟨behindGap, hblanks, hpasses⟩ :=
      Pattern.exists_mem_star_one (List.all_eq_true.mp hgap) hrest
    obtain ⟨d, hd, -⟩ := Pattern.exists_mem_textPattern (hpasses.rest_eq hrest)
    refine ⟨d, Pattern.mem_results_append_iff.mpr ⟨behindGap, ?_, ?_⟩⟩
    · refine Pattern.mem_results_append_iff.mpr ⟨behindWord, ?_, hblanks⟩
      exact Pattern.mem_results_append_iff.mpr ⟨_, List.mem_singleton_self _, hword⟩
    · exact Pattern.mem_results_choice_of_mem (List.mem_map_of_mem hmem) hd

theorem startsLabel_trim_iff : StartsLabel t.trim ↔
    ∃ before rest : Text, t = before ++ rest ∧ before.allBlank = true ∧ StartsLabel rest := by
  constructor
  · rintro ⟨gap, mark, after, htrim, hgap, hmark⟩
    obtain ⟨lead, trail, hlead, -, ht⟩ := Text.exists_trim_eq t
    refine ⟨lead, t.trim ++ trail, ht, hlead, gap, mark, after ++ trail, ?_, hgap, hmark⟩
    rw [htrim, List.append_assoc _ after]
  · rintro ⟨before, rest, rfl, hbefore, gap, mark, after, rfl, hgap, hmark⟩
    rw [Text.trim_append_left hbefore]
    have hlast : ∃ front c, mark = front ++ [c] ∧ isBlank c = false := by
      rcases List.mem_cons.mp hmark with rfl | hmark
      · exact ⟨[], ':', rfl, by decide⟩
      · obtain rfl := List.mem_singleton.mp hmark
        exact ⟨['-'], '>', rfl, by decide⟩
    obtain ⟨front, c, rfl, hc⟩ := hlast
    have hsplit : "default".toList ++ gap ++ (front ++ [c]) ++ after =
        ("default".toList ++ gap ++ front) ++ c :: after := by simp
    obtain ⟨after', hafter⟩ :=
      Text.exists_trim_append_cons hc ("default".toList ++ gap ++ front) after
    rw [hsplit, hafter]
    refine ⟨gap, front ++ [c], after', ?_, hgap, hmark⟩
    have hleft : Text.trimLeft ("default".toList ++ gap ++ front) =
        "default".toList ++ gap ++ front := rfl
    rw [hleft]
    simp

theorem IsDefaultLabel.of_allBlank {scope : List Text} {offset : Nat} {line before rest : Text}
    (hline : scope[offset]? = some line) (hcode : style.codeMask line = before ++ rest)
    (hbefore : before.allBlank = true) (hlabel : StartsLabel rest)
    (hdepth : braceDepth (codeBefore style scope offset) = 1)
    (hinside : ¬EndsScope (codeBefore style scope offset)) :
    IsDefaultLabel style scope offset before where
  written := ⟨line, rest, hline, hcode, hlabel⟩
  word c hc := isWordChar_of_isBlank (List.all_eq_true.mp hbefore c (List.mem_of_getLast? hc))
  depth := (braceDepth_append_of_allBlank hbefore _).trans hdepth
  inside := (endsScope_append_iff_of_allBlank hbefore).not.mpr hinside

theorem hasDefault_iff {k : Nat} (hclose : (scopeAt style lines index).close = some k) :
    hasDefault style lines index (scopeAt style lines index).visited = true ↔
      ∃ offset before, IsDefaultLabel style ((lines.drop index).take scopeWindow) offset before ∧
        0 < offset ∧ before.allBlank = true := by
  have hscope {offset : Nat} (h : offset < ((lines.drop index).take scopeWindow).length) :
      ((lines.drop index).take scopeWindow)[offset]? = some (lines.getD (index + offset) []) := by
    have hlt : index + offset < lines.length := by
      rw [List.length_take, List.length_drop] at h
      omega
    rw [List.getElem?_eq_getElem h, List.getElem_take, List.getElem_drop, List.getD_eq_getElem?_getD,
      List.getElem?_eq_getElem hlt, Option.getD_some]
  simp only [hasDefault, List.any_eq_true, Prod.exists, Bool.and_eq_true, decide_eq_true_eq,
    beq_iff_eq, matchesStart_defaultLabel_iff]
  constructor
  · rintro ⟨offset, depth, hmem, ⟨hpos, rfl⟩, hlabel⟩
    obtain ⟨hlt, hinside, hdepth⟩ := (mem_visited_scopeAt_iff hclose).mp hmem
    obtain ⟨before, rest, hcode, hbefore, hlabel⟩ := startsLabel_trim_iff.mp hlabel
    exact ⟨offset, before, .of_allBlank (hscope hlt) hcode hbefore hlabel hdepth.symm hinside, hpos,
      hbefore⟩
  · rintro ⟨offset, before, hlabel, hpos, hbefore⟩
    obtain ⟨line, rest, hline, hcode, hstarts⟩ := hlabel.written
    have hlt := (List.getElem?_eq_some_iff.mp hline).1
    have hsame : line = lines.getD (index + offset) [] := by
      rw [hscope hlt] at hline
      exact (Option.some.inj hline).symm
    refine ⟨offset, 1, (mem_visited_scopeAt_iff hclose).mpr ⟨hlt, ?_, ?_⟩, ⟨hpos, rfl⟩, ?_⟩
    · exact (endsScope_append_iff_of_allBlank hbefore).not.mp hlabel.inside
    · exact hlabel.depth.symm.trans (braceDepth_append_of_allBlank hbefore _)
    · exact hsame ▸ startsLabel_trim_iff.mpr ⟨before, rest, hcode, hbefore, hstarts⟩

/-- A switch whose scope is closed is reported exactly if no default label at the depth of the scope
is the first code on a line behind the first one. -/
theorem reports_rule_iff (style : LiteralStyle) (lines : List Text) (index : Nat) :
    (rule style).Reports lines index ↔
      (∃ line, lines[index]? = some line ∧ startsSwitch style line = true) ∧
      (scopeAt style lines index).close.isSome = true ∧
      ∀ offset before,
        IsDefaultLabel style ((lines.drop index).take scopeWindow) offset before →
          offset = 0 ∨ before.allBlank = false := by
  have hfound : (∃ f ∈ check style lines, f.index = index) ↔
      (∃ line, lines[index]? = some line ∧ startsSwitch style line = true) ∧
      (scopeAt style lines index).close.isSome = true ∧
      ¬hasDefault style lines index (scopeAt style lines index).visited = true := by
    simp only [check, Rule.mem_eachLine]
    constructor
    · rintro ⟨f, ⟨i, line, hline, hf⟩, rfl⟩
      split_ifs at hf with hswitch hquiet
      · cases hf
      · cases hf
      · obtain rfl := List.mem_singleton.mp hf
        simp only [Bool.or_eq_true, not_or, Bool.not_eq_true, Option.isNone_eq_false_iff] at hquiet
        exact ⟨⟨line, hline, by simpa using hswitch⟩, hquiet.1, Bool.eq_false_iff.mp hquiet.2⟩
    · rintro ⟨⟨line, hline, hswitch⟩, hclose, hnone⟩
      refine ⟨{ index }, ⟨index, line, hline, ?_⟩, rfl⟩
      simp [hswitch, Option.isNone_eq_false_iff.mpr hclose, hnone]
  refine (Rule.reports_ofCheck_iff (isSound style)).trans (hfound.trans ?_)
  refine and_congr_right fun _ => and_congr_right fun hclose => ?_
  obtain ⟨k, hclose⟩ := Option.isSome_iff_exists.mp hclose
  rw [hasDefault_iff hclose]
  constructor
  · intro hnone offset before hlabel
    by_contra hseen
    rw [not_or, Bool.not_eq_false] at hseen
    exact hnone ⟨offset, before, hlabel, Nat.pos_of_ne_zero hseen.1, hseen.2⟩
  · rintro hall ⟨offset, before, hlabel, hpos, hbefore⟩
    rcases hall offset before hlabel with rfl | hseen
    · exact absurd hpos (Nat.lt_irrefl 0)
    · rw [hbefore] at hseen
      cases hseen

end SwitchDefault

end LineLint
