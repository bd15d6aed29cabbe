import LineLint.Proofs.RuleReports
import LineLint.Proofs.SpaceableCells

/-!
# Operator spacing changes blanks only

For the tables of all languages with operator spacing, the new line has the characters of the old
one in their order, but for spaces and tabs. What it starts with, its literals, its generic spans
and its comment stay as they are, and no characters meet that did not meet before.
-/

namespace LineLint

/-- A part of a line stands in the new line, between what stood before and behind it. -/
def Span.IsCopied (line new : Text) (s : Span) : Prop :=
  ∃ before after : Text, new = before ++ line.slice s.start s.stop ++ after ∧
    before.solid = Text.solid (line.take s.start) ∧ after.solid = Text.solid (line.drop s.stop)

theorem Respaced.isCopied {cells : List Cell} {new : Text} {s : Span}
    (h : Respaced false cells new) (hlt : s.start < s.stop) (hle : s.stop ≤ cells.length)
    (hprotected : ∀ i c, s.start ≤ i → i < s.stop → cells[i]? = some c → c.isProtected = true) :
    s.IsCopied (Cell.codes cells) new := by
  have hsplit : cells.take s.start ++ (cells.take s.stop).drop s.start ++ cells.drop s.stop =
      cells := by
    have hfront : cells.take s.start = (cells.take s.stop).take s.start := by
      rw [List.take_take, Nat.min_eq_left (Nat.le_of_lt hlt)]
    rw [hfront, List.take_append_drop, List.take_append_drop]
  have hpart : ∀ c ∈ (cells.take s.stop).drop s.start, c.isProtected = true := by
    intro c hc
    obtain ⟨i, hi⟩ := List.mem_iff_getElem?.mp hc
    rw [List.getElem?_drop, List.getElem?_take] at hi
    split_ifs at hi with hstop
    exact hprotected (s.start + i) c (Nat.le_add_right _ _) hstop hi
  have hne : (cells.take s.stop).drop s.start ≠ [] := by
    apply List.ne_nil_of_length_pos
    rw [List.length_drop, List.length_take_of_le hle]
    omega
  rw [← hsplit] at h
  obtain ⟨before, after, hnew, hbefore, hafter⟩ := h.exists_copy_of_protected hpart hne
  refine ⟨before, after, ?_, ?_, ?_⟩
  · rw [hnew, Cell.codes, Cell.codes, Text.slice, List.map_drop, List.map_take]
  · rw [hbefore, Cell.codes, Cell.codes, List.map_take]
  · rw [hafter, Cell.codes, Cell.codes, List.map_drop]

namespace OperatorSpacing

/-- What operator spacing may change about a line. -/
structure ChangesBlanksOnly (r : OperatorSpacing) (line new : Text) : Prop where
  solid_eq : new.solid = line.solid
  leading_eq : new.takeWhile isBlank = line.takeWhile isBlank
  /-- Characters that meet in the new line, and are no spaces or tabs, met in the old one. -/
  meeting : ∀ before x y after, new = before ++ x :: y :: after → isSpaceOrTab x = false →
    isSpaceOrTab y = false →
    ∃ front back : Text, line = front ++ x :: y :: back ∧ front.solid = Text.solid before ∧
      back.solid = Text.solid after
  literals : ∀ s ∈ r.style.literals line, s.IsCopied line new
  /-- Literals and, where they are looked for, generic spans. -/
  spans : ∀ s ∈ ProtectedSpan.spans r.style r.generics (r.style.splitComment line).1,
    s.IsCopied line new
  comment : ∃ before : Text, new = before ++ (r.style.splitComment line).2 ∧
    before.solid = Text.solid (r.style.splitComment line).1

def codeCells (r : OperatorSpacing) (line : Text) : List Cell :=
  let code := (r.style.splitComment line).1
  let calls := ((keywordCall r.table.controlKeywords).findAll (r.style.maskLiterals code)).map
    fun m => (m.stop - 1, m.text "keyword")
  Cell.ofCode r.style r.generics (fun i => calls.lookup i) code

def commentCells (comment : Text) : List Cell := comment.map fun c => ⟨c, c, true, none⟩

def lineCells (r : OperatorSpacing) (line : Text) : List Cell :=
  r.codeCells line ++ commentCells (r.style.splitComment line).2

section Normalize

variable {r : OperatorSpacing}

theorem codes_commentCells (comment : Text) : Cell.codes (commentCells comment) = comment := by
  rw [Cell.codes, commentCells, List.map_map]
  exact List.map_id comment

theorem codes_lineCells (r : OperatorSpacing) (line : Text) :
    Cell.codes (r.lineCells line) = line := by
  rw [lineCells, Cell.codes_append, codeCells, Cell.codes_ofCode, codes_commentCells,
    r.style.splitComment_append line]

theorem exists_respaced_code (h : r.IsPlain) (line : Text) :
    ∃ t, (r.normalize line).line = t ++ (r.style.splitComment line).2 ∧
      Respaced false (r.codeCells line) t := by
  have hspaceable : IsSpaceable r.table.byLength ([] ++ r.codeCells line) :=
    isSpaceable_ofCode h fun i hi => isCall_of_lookup h hi
  have hrun : Continues {} (Cell.anyShows []) (r.codeCells line)
      (r.rebuild r.table.byLength [] 0 {} (r.codeCells line)).text :=
    continues_rebuild h.arePlain hspaceable rfl
  cases hrun with
  | behind t hnew ht => exact ⟨t, congrArg (· ++ (r.style.splitComment line).2) hnew, ht⟩
  | back _ _ hseen => cases hseen

theorem respaced_normalize (h : r.IsPlain) (line : Text) :
    Respaced false (r.lineCells line) (r.normalize line).line := by
  obtain ⟨t, hnew, ht⟩ := exists_respaced_code h line
  have hline := ht.append_codes (commentCells (r.style.splitComment line).2)
  rwa [codes_commentCells, ← hnew] at hline

theorem bounds_of_mem_spans {code : Text} {s : Span}
    (hs : s ∈ ProtectedSpan.spans r.style r.generics code) :
    s.start < s.stop ∧ s.stop ≤ code.length := by
  rcases List.mem_append.mp hs with hs | hs
  · have hquoted := LiteralStyle.isQuoted_of_mem_literals hs
    exact ⟨hquoted.start_lt_stop, hquoted.stop_le⟩
  · split_ifs at hs
    · obtain ⟨m, hm, rfl⟩ := List.mem_map.mp hs
      obtain ⟨before, name, angles, after, hmasked, -, -, hhead, -, hpart⟩ :=
        ProtectedSpan.exists_anglePart hm
      obtain ⟨rest, rfl⟩ := List.head?_eq_some_iff.mp hhead
      rw [hpart, ← r.style.length_maskLiterals code, hmasked]
      simp
    · cases hs

theorem isCopied_of_mem_spans (h : r.IsPlain) {line : Text} {s : Span}
    (hs : s ∈ ProtectedSpan.spans r.style r.generics (r.style.splitComment line).1) :
    s.IsCopied line (r.normalize line).line := by
  obtain ⟨hlt, hle⟩ := bounds_of_mem_spans hs
  have hlength : (r.codeCells line).length = (r.style.splitComment line).1.length :=
    Cell.length_ofCode
  have hcopied : s.IsCopied (Cell.codes (r.lineCells line)) (r.normalize line).line := by
    refine (respaced_normalize h line).isCopied hlt ?_ fun i c hstart hstop hc => ?_
    · rw [lineCells, List.length_append]
      omega
    · rw [lineCells, List.getElem?_append_left (by omega)] at hc
      exact (Cell.isAt hc).isProtected_iff.mpr ⟨s, hs, hstart, hstop⟩
  rwa [codes_lineCells] at hcopied

theorem changesBlanksOnly_of_isPlain (h : r.IsPlain) (line : Text) :
    ChangesBlanksOnly r line (r.normalize line).line := by
  have hnew := respaced_normalize h line
  refine ⟨?_, ?_, fun before x y after hmeet hx hy => ?_, fun s hs => ?_,
    fun s hs => isCopied_of_mem_spans h hs, ?_⟩
  · rw [hnew.solid_eq, codes_lineCells]
  · rw [hnew.takeWhile_isBlank_eq, codes_lineCells]
  · rw [hmeet] at hnew
    obtain ⟨front, back, hline, hfront⟩ := hnew.exists_codes_eq_append hx hy
    have hsolid := hnew.solid_eq
    rw [hline, Text.solid_append, Text.solid_append, hfront] at hsolid
    refine ⟨front, back, by rw [← hline, codes_lineCells], hfront, ?_⟩
    have hrest := List.append_cancel_left hsolid
    simpa [Text.solid, hx, hy] using hrest.symm
  · apply isCopied_of_mem_spans h
    rw [← LiteralStyle.literals_splitComment_fst] at hs
    exact List.mem_append_left _ hs
  · obtain ⟨t, hline, ht⟩ := exists_respaced_code h line
    exact ⟨t, hline, by rw [ht.solid_eq, codeCells, Cell.codes_ofCode]⟩

end Normalize

section Builtin

def builtin : List OperatorSpacing :=
  [{ table := CSharp.operators, style := CSharp.profile.style, skipped := [['#']] },
   Python.spacing,
   { table := Java.operators, style := Java.profile.style
     skipped := ["import ", "package ", "@"].map String.toList },
   { table := Cpp.operators, style := Cpp.profile.style, skipped := [['#']] },
   { table := JavaScript.operators, style := JavaScript.profile.style, skipped := [['#', '!']] }]

theorem perm_registered :
    (builtin.map fun r => (r.style, r.rule)).Perm (Registry.registered Spec.operatorSpacing.code) :=
  .of_eq rfl

theorem isPlain_of_mem_builtin : ∀ r ∈ builtin, r.IsPlain := by
  have htables : builtin.all hasPlainTables = true := by decide +kernel
  exact fun r hr => isPlain_of_hasPlainTables (List.all_eq_true.mp htables r hr)

/-- Operator spacing changes blanks only, in every language and on every line. -/
theorem changesBlanksOnly_normalize {r : OperatorSpacing} (hr : r ∈ builtin) (line : Text) :
    ChangesBlanksOnly r line (r.normalize line).line :=
  changesBlanksOnly_of_isPlain (isPlain_of_mem_builtin r hr) line

def tightSum : Text := "\tx =1+'a=b'  # a=b".toList

theorem changesBlanksOnly_normalize_tightSum :
    Python.spacing ∈ builtin ∧
      (Python.spacing.normalize tightSum).line = "\tx = 1 + 'a=b'  # a=b".toList ∧
      ChangesBlanksOnly Python.spacing tightSum (Python.spacing.normalize tightSum).line := by
  have hspacing : Python.spacing ∈ builtin := by simp [builtin]
  have hsorted : Python.spacing.table.byLength = Python.operators.binary ++ [] :=
    List.mergeSort_of_pairwise (by decide)
  have hnew : (Python.spacing.normalize tightSum).line = "\tx = 1 + 'a=b'  # a=b".toList := by
    rw [normalize, hsorted]
    decide +kernel
  exact ⟨hspacing, hnew, changesBlanksOnly_normalize hspacing tightSum⟩

end Builtin

end OperatorSpacing

end LineLint
