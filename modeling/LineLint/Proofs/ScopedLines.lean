import LineLint.IndentationScope
import LineLint.Proofs.MatchedText
import LineLint.Proofs.TrimmedMasks
import LineLint.Proofs.UnhinderedBatch

/-!
# What indentation by scopes reads of a line

The rule reads the indentation of a line, its trimmed text and the code in it. The code tells what
the line does to the open scopes, and whether the next line goes on with it. Lines that are trimmed
to the same text are therefore alike to the rule in everything but their indentation.
-/

namespace LineLint

namespace LineScan

variable {style : LiteralStyle} {lines lines' : List Text} {line line' : Text}

theorem count_codeMask (hstyle : style.IsOrdinary) (h : line.trim = line'.trim) {c : Char}
    (hblank : isBlank c = false) (hmask : c ≠ maskChar) :
    (style.codeMask line).count c = (style.codeMask line').count c := by
  have hsame := (LiteralStyle.sameCode_trim_codeMask hstyle h).count_eq hmask
  have htrim (line : Text) : (style.codeMask line).count c = (style.codeMask line).trim.count c := by
    rw [LiteralStyle.codeMask, Text.trim_trimRight, Text.count_trimRight hblank]
  rw [htrim, hsame, htrim line']

theorem bracketBalance_congr (hstyle : style.IsOrdinary) (h : line.trim = line'.trim) :
    bracketBalance (style.codeMask line) = bracketBalance (style.codeMask line') := by
  have hcount := fun {c : Char} => count_codeMask hstyle h (c := c)
  rw [bracketBalance, bracketBalance, hcount (by decide) (by decide), hcount (by decide) (by decide),
    hcount (by decide) (by decide), hcount (by decide) (by decide)]

theorem endsWithBackslash_congr (hstyle : style.IsOrdinary) (h : line.trim = line'.trim) :
    ((style.codeMask line).getLast? == some '\\') =
      ((style.codeMask line').getLast? == some '\\') := by
  have hsame := (LiteralStyle.sameCode_trim_codeMask hstyle h).getLast?_eq_some_iff
    hstyle.backslash (by decide)
  have htrim (line : Text) :
      (style.codeMask line).getLast? = (style.codeMask line).trim.getLast? := by
    rw [LiteralStyle.codeMask, Text.trim_trimRight, Text.getLast?_trimRight_eq]
  rw [Bool.eq_iff_iff, beq_iff_eq, beq_iff_eq, htrim, hsame, htrim line']

theorem continuedFrom_congr (hstyle : style.IsOrdinary)
    (h : lines.map Text.trim = lines'.map Text.trim) (depth : Int) (backslash : Bool) :
    continuedFrom style depth backslash lines = continuedFrom style depth backslash lines' := by
  induction lines generalizing lines' depth backslash with
  | nil =>
      rw [List.map_nil, eq_comm, List.map_eq_nil_iff] at h
      rw [h]
  | cons line lines ih =>
      cases lines' with
      | nil => cases h
      | cons line' lines' =>
          obtain ⟨hline, hlines⟩ := List.cons.inj h
          rw [continuedFrom, continuedFrom]
          simp only [bracketBalance_congr hstyle hline, endsWithBackslash_congr hstyle hline,
            ih hlines]

theorem continued_congr (hstyle : style.IsOrdinary)
    (h : lines.map Text.trim = lines'.map Text.trim) :
    continued style lines = continued style lines' :=
  continuedFrom_congr hstyle h 0 false

end LineScan

namespace IndentationScope

variable {r : IndentationScope} {scopes : List Int} {line line' : Text} {continued : Bool}

def code (r : IndentationScope) (line : Text) : Text := Text.trim (r.style.codeMask line)

def opens (r : IndentationScope) (line : Text) : Bool := (r.code line).getLast? == some '{'

def scopesAt (r : IndentationScope) (scopes : List Int) (line : Text) : List Int :=
  if (r.code line).head? == some '}' then scopes.drop 1 else scopes

def scopesAfter (r : IndentationScope) (scopes : List Int) (line : Text) : List Int :=
  if r.opens line then
    (if (r.code line).startsWithAny r.flatScopes then 0 else r.unit) :: r.scopesAt scopes line
  else r.scopesAt scopes line

def expected (r : IndentationScope) (scopes : List Int) (line : Text) : Int :=
  (r.scopesAt scopes line).foldr (· + ·) 0

def misplaces (r : IndentationScope) (scopes : List Int) (line : Text) (continued : Bool) : Bool :=
  Int.ofNat (Indentation.lineWidth r.unit line) != r.expected scopes line && !continued &&
    !r.isExempt line.trim (r.code line) (r.opens line)

def finding (r : IndentationScope) (index : Nat) (scopes : List Int) (line : Text) : Finding where
  index := index
  replacement := Text.spaces (r.expected scopes line) ++ line.trim
  fields := [("expected", Text.ofInt (r.expected scopes line)),
    ("width", Text.ofInt (Indentation.lineWidth r.unit line)), ("unit", Text.ofInt r.unit)]

section Steps

variable {index : Nat} {rest : List (Text × Bool)}

theorem checkFrom_cons_of_blank (h : line.trim = []) :
    r.checkFrom index scopes ((line, continued) :: rest) = r.checkFrom (index + 1) scopes rest := by
  rw [checkFrom]
  simp [h]

theorem checkFrom_cons (hunit : Indentation.IsUsable r.unit) (h : line.trim ≠ []) :
    r.checkFrom index scopes ((line, continued) :: rest) =
      (r.checkFrom (index + 1) (r.scopesAfter scopes line) rest).map
        ((if r.misplaces scopes line continued then [r.finding index scopes line] else []) ++ ·) := by
  have hempty : ¬line.trim.isEmpty = true := by simpa using h
  rw [checkFrom]
  simp only [if_neg hempty, Indentation.measureLine_of_isUsable hunit]
  rfl

theorem checkFrom_cons_of_tabRange (htab : Indentation.isTabWidth r.unit = false)
    (h : line.trim ≠ []) :
    r.checkFrom index scopes ((line, continued) :: rest) = .error .tabRange := by
  have hempty : ¬line.trim.isEmpty = true := by simpa using h
  rw [checkFrom]
  simp only [if_neg hempty, Indentation.measureLine_of_isTabWidth_eq_false htab]
  rfl

end Steps

section Alike

/-- The quotes of the language are ordinary ones, and no flat scope is told by them. -/
structure IsLegible (r : IndentationScope) : Prop where
  ordinary : r.style.IsOrdinary
  quotes : ∀ quote ∈ r.style.quotes, quote ∈ ['"', '\'', '`']
  flatScopes : ∀ scope ∈ r.flatScopes, ∀ quote ∈ r.style.quotes, quote ∉ scope

variable (hr : r.IsLegible) (h : line.trim = line'.trim)
include hr h

theorem sameCode_code : r.style.SameCode (r.code line) (r.code line') :=
  LiteralStyle.sameCode_trim_codeMask hr.ordinary h

theorem opens_congr : r.opens line = r.opens line' := by
  have hbrace : '{' ∉ r.style.quotes := fun hquote => absurd (hr.quotes _ hquote) (by decide)
  rw [opens, opens, Bool.eq_iff_iff, beq_iff_eq, beq_iff_eq]
  exact (sameCode_code hr h).getLast?_eq_some_iff hbrace (by decide)

theorem scopesAt_congr (scopes : List Int) : r.scopesAt scopes line = r.scopesAt scopes line' := by
  rw [scopesAt, scopesAt, (sameCode_code hr h).head?_eq]

theorem scopesAfter_congr (scopes : List Int) :
    r.scopesAfter scopes line = r.scopesAfter scopes line' := by
  rw [scopesAfter, scopesAfter, opens_congr hr h, scopesAt_congr hr h,
    (sameCode_code hr h).startsWithAny_eq hr.flatScopes]

theorem expected_congr (scopes : List Int) : r.expected scopes line = r.expected scopes line' := by
  rw [expected, expected, scopesAt_congr hr h]

end Alike

end IndentationScope

end LineLint
