import LineLint.Proofs.SpelledHunks
import LineLint.Proofs.TrimmedText
import LineLint.Proofs.UnhinderedBatch
import Mathlib.Algebra.Ring.Int.Defs

/-!
# A fix that is listed twice

One fix of a line is carried out as it stands, and two equal ones are composed. Both ways give the
same line where the indentation of the fix is the one that counts, or where there is only one
indentation to choose from.
-/

namespace LineLint

namespace Indentation

theorem widthFrom_spaces (unit : Int) (column n : Nat) :
    widthFrom unit column (List.replicate n ' ') = n := by
  induction n generalizing column with
  | zero => rfl
  | succ n ih =>
      have hspace : (' ' == '\t') = false ∧ (' ' == '\n' || ' ' == '\r') = false := by decide
      rw [List.replicate_succ, widthFrom, hspace.1, hspace.2]
      simp only [Bool.false_eq_true, if_false]
      rw [ih, Nat.add_comm]

theorem lineWidth_of_indentation_eq_spaces {unit n : Int} {line : Text} (hn : 0 ≤ n)
    (h : line.indentation = Text.spaces n) : (lineWidth unit line : Int) = n := by
  rw [lineWidth, width, h, Text.spaces, widthFrom_spaces]
  exact Int.toNat_of_nonneg hn

theorem nearest_mul {unit : Int} (hunit : 1 ≤ unit) (n : Nat) :
    nearest (n * unit) unit = .ok (n * unit) := by
  have hne : (unit == 0) = false := by
    have : unit ≠ 0 := by omega
    simpa using this
  have hhalf : Int.fdiv unit 2 / unit = 0 := by
    rw [Int.fdiv_eq_ediv_of_nonneg _ (by omega)]
    exact Int.ediv_eq_zero_of_lt (by omega) (by omega)
  have hdiv : Int.fdiv (n * unit + Int.fdiv unit 2) unit = n := by
    rw [Int.fdiv_eq_ediv_of_nonneg _ (by omega), Int.add_comm,
      Int.add_mul_ediv_right _ _ (by omega), hhalf, Int.zero_add]
  rw [nearest, hne, hdiv]
  rfl

def IsWholeUnits (unit : Int) (t : Text) : Prop := ∃ n : Nat, t = Text.spaces (n * unit)

theorem exists_reindentLine_own {unit : Int} (hunit : 1 ≤ unit) (htab : isTabWidth unit = true)
    (line new : Text) :
    ∃ indent, reindentLine unit line new true = .ok (indent ++ new.dropIndentation) ∧
      (indent = new.indentation ↔ IsWholeUnits unit new.indentation) := by
  have hmeasure : measureLine unit new = .ok (lineWidth unit new) := if_pos htab
  have hne : unit ≠ 0 := by omega
  have hround : nearest (lineWidth unit new) unit =
      .ok (Int.fdiv (lineWidth unit new + Int.fdiv unit 2) unit * unit) :=
    if_neg (by simpa using hne)
  refine ⟨Text.spaces (Int.fdiv (lineWidth unit new + Int.fdiv unit 2) unit * unit), ?_, ?_⟩
  · rw [reindentLine, if_pos rfl, hmeasure]
    simp only [bind, Except.bind, pure, Except.pure, hround]
  constructor
  · intro hkept
    have hhalf : 0 ≤ Int.fdiv unit 2 := Int.fdiv_nonneg (by omega) (by omega)
    have hsteps : 0 ≤ Int.fdiv (lineWidth unit new + Int.fdiv unit 2) unit :=
      Int.fdiv_nonneg (by omega) (by omega)
    exact ⟨_, by rw [Int.toNat_of_nonneg hsteps, hkept]⟩
  · rintro ⟨n, hn⟩
    have hwidth : lineWidth unit new = (n * unit).toNat := by
      rw [lineWidth, width, hn, Text.spaces, widthFrom_spaces]
    have hnonneg : 0 ≤ (n : Int) * unit := Int.mul_nonneg (by omega) (by omega)
    rw [hwidth, Int.toNat_of_nonneg hnonneg] at hround ⊢
    rw [← Except.ok.inj ((nearest_mul hunit n).symm.trans hround), hn]

theorem dropIndentation_indentation_append (line new : Text) :
    (line.indentation ++ new.dropIndentation).dropIndentation = new.dropIndentation :=
  Text.dropIndentation_append_dropIndentation (fun _ => Text.isSpaceOrTab_of_mem_indentation) new

theorem reindentLine_indentation_append (unit : Int) (line new : Text) :
    reindentLine unit line (line.indentation ++ new.dropIndentation) false =
      .ok (line.indentation ++ new.dropIndentation) := by
  rw [reindentLine, if_neg Bool.false_ne_true, dropIndentation_indentation_append]
  split_ifs <;> rfl

end Indentation

namespace SourceLines

theorem renderWith_append_cons_inj (s : SourceLines) (init rest : List Text) {x y : Text} :
    s.renderWith (init ++ x :: rest) = s.renderWith (init ++ y :: rest) ↔ x = y := by
  have hrender (z : Text) : s.renderWith (init ++ z :: rest) =
      init.flatMap (· ++ s.newline) ++ z ++ (rest.flatMap (s.newline ++ ·) ++
        if s.trailingNewline then s.newline else []) := by
    have hsome : (init ++ z :: rest).isEmpty = false := by simp
    rw [renderWith, hsome, if_neg Bool.false_ne_true, Text.joinWith_append_cons, List.append_assoc]
  rw [hrender, hrender, List.append_left_inj, List.append_right_inj]

end SourceLines

namespace Fixing

open Indentation

section Line

variable {unit : Int} {line : Text} {d : Diagnostic}

theorem composable_pair (line : Text) (d : Diagnostic) : composable line [d, d] = [d, d] := by
  have hnone : (composeRevisions line [d.newText, d.newText]).2 = [] :=
    congrArg Prod.snd (Composition.composeRevisions_replicate line d.newText 1)
  simp [composable, entriesOff, hnone]

theorem chosenIndent?_pair (indent : Text) (hfree : '\n' ∉ d.newText) :
    chosenIndent? indent [d, d] =
      if d.setsIndent = true ∧ d.newText.indentation ≠ indent then some d.newText.indentation
      else none := by
  unfold chosenIndent?
  by_cases hchosen : d.setsIndent = true ∧ d.newText.indentation ≠ indent
  · rw [if_pos hchosen]
    simp [hchosen, hfree]
  · rw [if_neg hchosen]
    have hpass : (d.setsIndent && !d.newText.contains '\n' && d.newText.indentation != indent) =
        false := by
      rw [not_and_not_right] at hchosen
      cases hsets : d.setsIndent with
      | false => rfl
      | true => simp [hchosen hsets]
    simp only [List.find?_cons, hpass, List.find?_nil, Option.map_none]

/-- Two equal fixes take the indentation of the fix if it counts and differs from that of the line,
and the indentation of the line otherwise. -/
theorem composedLines_pair (unit : Int) (line : Text) (hfree : '\n' ∉ d.newText) :
    composedLines unit line [d, d] =
      if d.setsIndent = true ∧ d.newText.indentation ≠ line.indentation then
        (reindentLine unit line d.newText true).map ([·])
      else .ok [line.indentation ++ d.newText.dropIndentation] := by
  have hmerged : (composeRevisions line [d.newText, d.newText]).1 = d.newText.dropIndentation :=
    congrArg Prod.fst (Composition.composeRevisions_replicate line d.newText 1)
  have hdrop : (d.newText.dropIndentation.contains '\n') = false := by
    have hnot : '\n' ∉ d.newText.dropIndentation := fun h =>
      hfree ((List.dropWhile_suffix isSpaceOrTab).subset h)
    simpa using hnot
  unfold composedLines
  simp only [List.map_cons, List.map_nil, hmerged, hdrop, composable_pair, Bool.false_eq_true,
    if_false, chosenIndent?_pair _ hfree]
  split_ifs
  · rw [Option.getD_some, Option.isSome_some, Text.indentation_append_dropIndentation]
  · rw [Option.getD_none, Option.isSome_none, reindentLine_indentation_append]
    rfl

theorem outcome_pair (unit : Int) (line : Text) (hne : d.isDeletion = false)
    (hfree : '\n' ∉ d.newText) :
    outcome unit line [d, d] =
      if d.setsIndent = true ∧ d.newText.indentation ≠ line.indentation then
        outcome unit line [d]
      else [line.indentation ++ d.newText.dropIndentation] := by
  have hcontains : ¬(d.newText.contains '\n') = true := by simpa using hfree
  have hpair : fixedLines unit line [d, d] = composedLines unit line [d, d] :=
    fixedLines_several (by simp [hne])
  have hsingle : fixedLines unit line [d] =
      (reindentLine unit line d.newText d.setsIndent).map ([·]) := by
    rw [fixedLines_single hne, replacedLines, if_neg hcontains]
  rw [composedLines_pair unit line hfree] at hpair
  split_ifs at hpair ⊢ with hchosen
  · rw [outcome, hpair, outcome, hsingle, hchosen.1]
  · exact outcome_of_ok hpair

/-- A single fix whose indentation counts is kept as it stands if its indentation fills whole units.
Where a tab is too wide it fails. -/
theorem outcome_single_of_setsIndent {unit : Int} (hunit : 1 ≤ unit) (line : Text)
    (hne : d.isDeletion = false) (hfree : '\n' ∉ d.newText) (hsets : d.setsIndent = true) :
    ∃ new, outcome unit line [d] = [new] ∧ (new = d.newText ↔
      (isTabWidth unit = true ∧ IsWholeUnits unit d.newText.indentation) ∨
        (isTabWidth unit = false ∧ d.newText = line)) := by
  have hcontains : ¬(d.newText.contains '\n') = true := by simpa using hfree
  have hsingle : fixedLines unit line [d] =
      (reindentLine unit line d.newText true).map ([·]) := by
    rw [fixedLines_single hne, replacedLines, if_neg hcontains, hsets]
  cases htab : isTabWidth unit with
  | true =>
      obtain ⟨indent, hindent, hwhole⟩ := exists_reindentLine_own hunit htab line d.newText
      rw [hindent] at hsingle
      refine ⟨_, outcome_of_ok hsingle, ?_⟩
      rw [← hwhole]
      constructor
      · intro hsame
        refine Or.inl ⟨rfl, List.append_cancel_right (hsame.trans ?_)⟩
        exact (Text.indentation_append_dropIndentation d.newText).symm
      · rintro (⟨-, hkept⟩ | ⟨hfalse, -⟩)
        · rw [hkept, Text.indentation_append_dropIndentation]
        · cases hfalse
  | false =>
      have hmeasure : measureLine unit d.newText = .error .tabRange :=
        if_neg (by rw [htab]; exact Bool.false_ne_true)
      rw [reindentLine, if_pos rfl, hmeasure] at hsingle
      refine ⟨line, outcome_of_error hsingle, ?_⟩
      simp [eq_comm]

theorem outcome_single_of_not_setsIndent (unit : Int) (line : Text) (hne : d.isDeletion = false)
    (hfree : '\n' ∉ d.newText) (hsets : d.setsIndent = false) :
    outcome unit line [d] =
      if d.newText.indentation = [] then [line.indentation ++ d.newText.dropIndentation]
      else [d.newText] := by
  have hcontains : ¬(d.newText.contains '\n') = true := by simpa using hfree
  apply outcome_of_ok
  rw [fixedLines_single hne, replacedLines, if_neg hcontains, hsets, reindentLine,
    if_neg Bool.false_ne_true]
  by_cases hown : d.newText.indentation = []
  · rw [if_pos hown, if_pos (List.isEmpty_iff.mpr hown)]
    rfl
  · rw [if_neg hown, if_neg (fun hempty => hown (List.isEmpty_iff.mp hempty))]
    rfl

/-- One fix and two equal ones whose indentation counts make a line each, the same one if it is
another indentation than that of the line or if the single fix keeps it. -/
theorem outcomes_of_setsIndent {unit : Int} (hunit : 1 ≤ unit) (line : Text)
    (hne : d.isDeletion = false) (hfree : '\n' ∉ d.newText) (hsets : d.setsIndent = true) :
    ∃ once twice, outcome unit line [d] = [once] ∧ outcome unit line [d, d] = [twice] ∧
      (once = twice ↔ d.newText.indentation ≠ line.indentation ∨
        (isTabWidth unit = true ∧ IsWholeUnits unit d.newText.indentation) ∨
        (isTabWidth unit = false ∧ d.newText = line)) := by
  obtain ⟨once, hsingle, hkeeps⟩ := outcome_single_of_setsIndent hunit line hne hfree hsets
  have hpair := outcome_pair unit line hne hfree
  by_cases hother : d.newText.indentation = line.indentation
  · rw [if_neg (fun hboth => hboth.2 hother), ← hother,
      Text.indentation_append_dropIndentation] at hpair
    exact ⟨once, d.newText, hsingle, hpair, by rw [hkeeps, or_iff_right (not_not_intro hother)]⟩
  · rw [if_pos ⟨hsets, hother⟩, hsingle] at hpair
    exact ⟨once, once, hsingle, hpair, iff_of_true rfl (Or.inl hother)⟩

/-- One fix and two equal ones whose indentation does not count make a line each, the same one if
there is only one indentation to choose from. -/
theorem outcomes_of_not_setsIndent (unit : Int) (line : Text) (hne : d.isDeletion = false)
    (hfree : '\n' ∉ d.newText) (hsets : d.setsIndent = false) :
    ∃ once twice, outcome unit line [d] = [once] ∧ outcome unit line [d, d] = [twice] ∧
      (once = twice ↔
        d.newText.indentation = [] ∨ d.newText.indentation = line.indentation) := by
  have hnot : ¬(d.setsIndent = true ∧ d.newText.indentation ≠ line.indentation) := fun hboth =>
    Bool.false_ne_true (hsets.symm.trans hboth.1)
  have hsingle := outcome_single_of_not_setsIndent unit line hne hfree hsets
  have hpair := outcome_pair unit line hne hfree
  rw [if_neg hnot] at hpair
  by_cases hempty : d.newText.indentation = []
  · rw [if_pos hempty] at hsingle
    exact ⟨_, _, hsingle, hpair, iff_of_true rfl (Or.inl hempty)⟩
  · rw [if_neg hempty] at hsingle
    refine ⟨_, _, hsingle, hpair, ?_⟩
    rw [or_iff_right hempty]
    constructor
    · intro hsame
      refine List.append_cancel_right (Eq.trans ?_ hsame)
      exact Text.indentation_append_dropIndentation d.newText
    · intro hsame
      rw [← hsame, Text.indentation_append_dropIndentation]

end Line

theorem flatten_outcomes_of_one_line (unit : Int) (init rest : List Text) (line : Text)
    {ds : List Diagnostic} (h : ∀ d ∈ ds, d.line - 1 = init.length) :
    ((init ++ line :: rest).mapIdx fun i x => outcome unit x (ofLine ds i)).flatten =
      init ++ (outcome unit line ds ++ rest) := by
  have hother (i : Nat) (hi : i ≠ init.length) : ofLine ds i = [] := by
    apply List.filter_eq_nil_iff.mpr
    intro d hd
    have := h d hd
    simp only [beq_iff_eq]
    omega
  have hown : ofLine ds init.length = ds := by
    apply List.filter_eq_self.mpr
    intro d hd
    simpa using h d hd
  have hinit : init.mapIdx (fun i x => outcome unit x (ofLine ds i)) =
      init.mapIdx fun _ x => [x] := by
    refine List.mapIdx_eq_mapIdx_iff.mpr fun i hi => ?_
    rw [hother i (by omega), outcome_nil]
  rw [List.mapIdx_append, List.mapIdx_cons, List.flatten_append, List.flatten_cons, hinit,
    flatten_mapIdx_eq_self fun _ _ => rfl, Nat.zero_add, hown, flatten_mapIdx_eq_self fun i x => ?_]
  rw [hother _ (by omega), outcome_nil]

section Text

variable {settings : FixSettings} {text : Text} {d : Diagnostic}

theorem applyFixes_text_of_one_line {i : Nat} {line : Text} {ds : List Diagnostic}
    (hline : (SourceLines.ofText text).lines[i]? = some line)
    (hds : ∀ d ∈ ds, d.hasFix = true ∧ Spec.relocates d.code = false ∧ d.line = i + 1) :
    (applyFixes settings text ds).text = (SourceLines.ofText text).renderWith
      ((SourceLines.ofText text).lines.take i ++ (outcome settings.indentUnit line ds ++
        (SourceLines.ofText text).lines.drop (i + 1))) := by
  have hfixable : fixable ds = ds := List.filter_eq_self.mpr fun d hd => (hds d hd).1
  have hmoves : (moves ds).isEmpty = true := by
    rw [moves, hfixable, List.isEmpty_iff, List.filter_eq_nil_iff]
    intro d hd
    simp [(hds d hd).2.1]
  have hlocal : localFixes ds = ds := (localFixes_of_no_moves hmoves).trans hfixable
  obtain ⟨hlt, hget⟩ := List.getElem?_eq_some_iff.mp hline
  have hlines : (SourceLines.ofText text).lines =
      (SourceLines.ofText text).lines.take i ++ line ::
        (SourceLines.ofText text).lines.drop (i + 1) := by
    rw [← hget, ← List.drop_eq_getElem_cons hlt, List.take_append_drop]
  have hnamed : ∀ d ∈ ds, d.line - 1 = ((SourceLines.ofText text).lines.take i).length := by
    intro d hd
    rw [List.length_take_of_le hlt.le, (hds d hd).2.2, Int.add_sub_cancel]
  rw [applyFixes_text]
  simp only
  rw [relocate_of_no_moves hmoves, hlocal]
  conv_lhs => rw [hlines]
  rw [flatten_outcomes_of_one_line _ _ _ _ hnamed]

/-- A relocation that is asked for twice is done as if asked for once. -/
theorem applyFixes_text_twice_of_relocates (settings : FixSettings) (text : Text)
    (hfix : d.hasFix = true) (h : Spec.relocates d.code = true) :
    (applyFixes settings text [d]).text = (applyFixes settings text [d, d]).text := by
  have hmoves : moves [d] = [d] ∧ moves [d, d] = [d, d] := by simp [moves, fixable, hfix, h]
  have hlocal : localFixes [d] = [] ∧ localFixes [d, d] = [] := by
    simp [localFixes, fixable, hfix, h]
  have honce : (moves [d]).isEmpty = false := by rw [hmoves.1, List.isEmpty_cons]
  have htwice : (moves [d, d]).isEmpty = false := by rw [hmoves.2, List.isEmpty_cons]
  rw [applyFixes_text, applyFixes_text]
  simp only
  cases hsettings : settings.relocatable with
  | none =>
      rw [relocate_of_none honce hsettings, relocate_of_none htwice hsettings, hlocal.1, hlocal.2]
  | some pattern =>
      have horder : lineOrder settings (SourceLines.ofText text).lines [d] =
          lineOrder settings (SourceLines.ofText text).lines [d, d] := by
        simp only [lineOrder, honce, htwice]
      rw [relocate_of_some honce hsettings, relocate_of_some htwice hsettings, hlocal.1, hlocal.2,
        horder]

/-- A fix that is listed twice gives the text that it gives once: always if it is a relocation;
where its indentation counts, exactly if that is another one than that of its line, or one of whole
units, or nothing is to be done where a tab is too wide; where its indentation does not count,
exactly if it has none of its own or the same as its line. -/
theorem applyFixes_twice {new line : Text} {i : Nat} (hunit : 1 ≤ settings.indentUnit)
    (hline : (SourceLines.ofText text).lines[i]? = some line) (hindex : d.line = i + 1)
    (hnew : d.replacement = some new) (hne : new ≠ []) (hfree : '\n' ∉ new) :
    let once := (applyFixes settings text [d]).text
    let twice := (applyFixes settings text [d, d]).text
    (Spec.relocates d.code = true → once = twice) ∧
      (Spec.relocates d.code = false → d.setsIndent = true →
        (once = twice ↔ new.indentation ≠ line.indentation ∨
          (isTabWidth settings.indentUnit = true ∧
            IsWholeUnits settings.indentUnit new.indentation) ∨
          (isTabWidth settings.indentUnit = false ∧ new = line))) ∧
      (Spec.relocates d.code = false → d.setsIndent = false →
        (once = twice ↔ new.indentation = [] ∨ new.indentation = line.indentation)) := by
  intro once twice
  have hfix : d.hasFix = true := by simp [Diagnostic.hasFix, hnew]
  have hkept : d.isDeletion = false := by simpa [Diagnostic.isDeletion, hnew] using hne
  obtain rfl : d.newText = new := by simp [Diagnostic.newText, hnew]
  -- A local fix changes one line, so it is enough to compare what becomes of that line.
  have hcompare (h : Spec.relocates d.code = false) {x y : Text}
      (hx : outcome settings.indentUnit line [d] = [x])
      (hy : outcome settings.indentUnit line [d, d] = [y]) : once = twice ↔ x = y := by
    have honce : once = _ := applyFixes_text_of_one_line hline (by simp [hfix, h, hindex])
    have htwice : twice = _ := applyFixes_text_of_one_line hline (by simp [hfix, h, hindex])
    rw [honce, htwice, hx, hy, List.singleton_append, List.singleton_append,
      SourceLines.renderWith_append_cons_inj]
  refine ⟨applyFixes_text_twice_of_relocates settings text hfix, fun h hsets => ?_,
    fun h hsets => ?_⟩
  · obtain ⟨x, y, hx, hy, hsame⟩ := outcomes_of_setsIndent hunit line hkept hfree hsets
    rw [hcompare h hx hy, hsame]
  · obtain ⟨x, y, hx, hy, hsame⟩ :=
      outcomes_of_not_setsIndent settings.indentUnit line hkept hfree hsets
    rw [hcompare h hx hy, hsame]

end Text

def keepsUnit : Diagnostic :=
  { code := "SPACING", message := [], line := 1, category := "Formatting", suggestion := [],
    replacement := some "    x = 1".toList }

theorem applyFixes_twice_keepsUnit :
    (applyFixes {} "    x=1\n".toList [keepsUnit]).text =
      (applyFixes {} "    x=1\n".toList [keepsUnit, keepsUnit]).text := by
  have hwhole : IsWholeUnits 4 (Text.indentation "    x = 1".toList) := ⟨1, by decide⟩
  obtain ⟨-, hsets, -⟩ := @applyFixes_twice {} "    x=1\n".toList keepsUnit "    x = 1".toList
    "    x=1".toList 0 (by decide) (by decide) (by decide) rfl (by decide) (by decide)
  exact (hsets (by decide) (by decide)).mpr (Or.inr (Or.inl ⟨by decide, hwhole⟩))

def keepsTab : Diagnostic :=
  { code := "SPACING", message := [], line := 1, category := "Formatting", suggestion := [],
    replacement := some ['\t', 'x', ' ', '=', ' ', '1'] }

/-- A fix with less indentation than its line, in a category that does not set it. -/
def keepsOwn : Diagnostic :=
  { code := "SPACING", message := [], line := 1, category := "Syntax", suggestion := [],
    replacement := some [' ', ' ', 'x', ' ', '=', ' ', '1'] }

def keepsNone : Diagnostic :=
  { code := "SPACING", message := [], line := 1, category := "Formatting", suggestion := [],
    replacement := some ['x', ' ', '=', ' ', '1'] }

theorem applyFixes_text_of_single_line (settings : FixSettings) {text line : Text} {d : Diagnostic}
    (hlines : (SourceLines.ofText text).lines = [line]) (hd : d.line = 1)
    (hlocal : Spec.relocates d.code = false) (hfix : d.hasFix = true) (hkept : d.isDeletion = false)
    (hfree : '\n' ∉ d.newText) :
    (applyFixes settings text [d]).text =
        (SourceLines.ofText text).renderWith (outcome settings.indentUnit line [d]) ∧
      (applyFixes settings text [d, d]).text = (SourceLines.ofText text).renderWith
        (if d.setsIndent = true ∧ d.newText.indentation ≠ line.indentation then
          outcome settings.indentUnit line [d]
        else [line.indentation ++ d.newText.dropIndentation]) := by
  have htext (ds : List Diagnostic) (hds : ∀ e ∈ ds, e = d) :
      (applyFixes settings text ds).text = (SourceLines.ofText text).renderWith
        (outcome settings.indentUnit line ds) := by
    have hline : (SourceLines.ofText text).lines[0]? = some line := by rw [hlines]; rfl
    rw [applyFixes_text_of_one_line hline fun e he => ?_, hlines, List.take_zero, List.drop_one,
      List.tail_cons, List.append_nil, List.nil_append]
    obtain rfl := hds e he
    exact ⟨hfix, hlocal, hd⟩
  rw [htext [d] (by simp), htext [d, d] (by simp), outcome_pair _ _ hkept hfree]
  exact ⟨rfl, rfl⟩

/-- A fix that is carried out once has its tab turned into spaces, keeps an indentation that its
category does not set, and fails where a tab is too wide. Listed twice, it keeps the indentation of
the line in each case. -/
theorem applyFixes_twice_ne :
    ((applyFixes {} "\tx=1\n".toList [keepsTab]).text = "    x = 1\n".toList ∧
      (applyFixes {} "\tx=1\n".toList [keepsTab, keepsTab]).text = "\tx = 1\n".toList) ∧
    ((applyFixes {} "    x=1\n".toList [keepsOwn]).text = "  x = 1\n".toList ∧
      (applyFixes {} "    x=1\n".toList [keepsOwn, keepsOwn]).text = "    x = 1\n".toList) ∧
    ((applyFixes { indentUnit := 2 ^ 31 } "x=1\n".toList [keepsNone]).text = "x=1\n".toList ∧
      (applyFixes { indentUnit := 2 ^ 31 } "x=1\n".toList [keepsNone, keepsNone]).text =
        "x = 1\n".toList) := by
  have htab := @applyFixes_text_of_single_line {} "\tx=1\n".toList "\tx=1".toList keepsTab
    (by decide) rfl (by decide) rfl rfl (by decide)
  have hown := @applyFixes_text_of_single_line {} "    x=1\n".toList "    x=1".toList keepsOwn
    (by decide) rfl (by decide) rfl rfl (by decide)
  have hnone := @applyFixes_text_of_single_line { indentUnit := 2 ^ 31 } "x=1\n".toList
    "x=1".toList keepsNone (by decide) rfl (by decide) rfl rfl (by decide)
  refine ⟨⟨htab.1.trans ?_, htab.2.trans ?_⟩, ⟨hown.1.trans ?_, hown.2.trans ?_⟩,
    hnone.1.trans ?_, hnone.2.trans ?_⟩
  all_goals decide

end Fixing

end LineLint
