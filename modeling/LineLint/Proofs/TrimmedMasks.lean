import LineLint.Proofs.CutOffLines
import LineLint.Proofs.TrimmedText

/-!
# Masks of trimmed lines

Blanks around a line are no part of its code. Those before it stay before its mask. Those behind it
are dropped with the mask's own, or they lengthen what is hidden in a literal that the line cuts off.
Lines that are trimmed to the same text therefore show the same code.
-/

namespace LineLint

namespace LiteralStyle

variable {style : LiteralStyle} {line line' rest interior after t t' trail trail' lead : Text}
  {quote c : Char}

section Cases

theorem codeMask_of_commentStarts (h : style.commentStarts (c :: rest) = true) :
    style.codeMask (c :: rest) = [] := by
  rw [codeMask, splitComment_of_commentStarts h]
  rfl

theorem codeMask_cons_of_plain (hcomment : style.commentStarts (c :: rest) = false)
    (hquote : c ∉ style.quotes) :
    style.codeMask (c :: rest) = Text.trimRight ([c] ++ style.codeMask rest) := by
  rw [codeMask, splitComment_cons_of_plain hcomment hquote,
    maskLiterals_cons_of_plain (commentStarts_cons_code hcomment) hquote]
  exact (Text.trimRight_append_trimRight [c] _).symm

theorem codeMask_of_closed (hquotes : '\\' ∉ style.quotes)
    (h : style.IsLiteralBefore (quote :: (interior ++ [quote])) after) :
    style.codeMask (quote :: (interior ++ [quote]) ++ after) =
      Text.trimRight (quote :: (List.replicate interior.length maskChar ++ [quote]) ++
        style.codeMask after) := by
  rw [codeMask, h.splitComment_eq, maskLiterals_of_closed hquotes h.before_code]
  exact (Text.trimRight_append_trimRight _ _).symm

theorem IsOrdinary.isBlank_eq_false (hstyle : style.IsOrdinary) (hquote : quote ∈ style.quotes) :
    isBlank quote = false := by
  by_contra hblank
  exact hstyle.notMem_quotes (isMark_of_isBlank (by simpa using hblank)) hquote

/-- What is hidden in a literal that is cut off is no blank, and so it is not trimmed. -/
theorem isBlank_of_mem_getLast?_cutOff (hstyle : style.IsOrdinary) (hquote : quote ∈ style.quotes)
    (front : Text) (n : Nat)
    (h : c ∈ (front ++ quote :: List.replicate n maskChar).getLast?) : isBlank c = false := by
  rw [List.getLast?_append_of_ne_nil _ (List.cons_ne_nil _ _)] at h
  rcases List.mem_cons.mp (List.mem_of_getLast? h) with rfl | hmem
  · exact hstyle.isBlank_eq_false hquote
  · rw [List.eq_of_mem_replicate hmem]
    decide

theorem codeMask_of_staysOpen (hstyle : style.IsOrdinary) (hquote : quote ∈ style.quotes)
    (hcomment : style.commentStarts (quote :: rest) = false)
    (hopen : style.StaysOpen (quote :: rest)) :
    style.codeMask (quote :: rest) = quote :: List.replicate rest.length maskChar := by
  rw [codeMask, splitComment_of_staysOpen hcomment hopen,
    maskLiterals_of_staysOpen hstyle.backslash hcomment hopen]
  exact Text.trimRight_eq_self fun c hc => isBlank_of_mem_getLast?_cutOff hstyle hquote [] _ hc

end Cases

section SameCode

/-- Two masks that show the same: they are equal, or they end alike in a literal that is cut off, and
hide a different number of characters there. -/
inductive SameCode (style : LiteralStyle) : Text → Text → Prop
  | same (t : Text) : SameCode style t t
  | cutOff (front : Text) {quote : Char} (hquote : quote ∈ style.quotes) (n n' : Nat) :
      SameCode style (front ++ quote :: List.replicate n maskChar)
        (front ++ quote :: List.replicate n' maskChar)

theorem SameCode.trimRight_append (hstyle : style.IsOrdinary) (h : style.SameCode t t')
    (front : Text) : style.SameCode (front ++ t).trimRight (front ++ t').trimRight := by
  cases h with
  | same t => exact .same _
  | cutOff more hquote n n' =>
      have htrim (n : Nat) := Text.trimRight_eq_self fun c hc =>
        isBlank_of_mem_getLast?_cutOff (c := c) hstyle hquote (front ++ more) n hc
      rw [← List.append_assoc, ← List.append_assoc, htrim, htrim]
      exact .cutOff (front ++ more) hquote n n'

theorem SameCode.trim (hstyle : style.IsOrdinary) (h : style.SameCode t t') :
    style.SameCode t.trim t'.trim := by
  cases h with
  | same t => exact .same _
  | cutOff front hquote n n' =>
      have hblank := hstyle.isBlank_eq_false hquote
      rw [Text.trim, Text.trim, Text.trimLeft_append_cons hblank, Text.trimLeft_append_cons hblank]
      exact (SameCode.cutOff [] hquote n n').trimRight_append hstyle front.trimLeft

theorem codeMask_append_of_allBlank (hstyle : style.IsOrdinary) (hlead : lead.allBlank = true)
    (t : Text) : style.codeMask (lead ++ t) = (lead ++ style.codeMask t).trimRight := by
  induction lead with
  | nil =>
      rw [List.nil_append, List.nil_append, codeMask]
      exact (Text.trimRight_append_trimRight [] _).symm
  | cons c lead ih =>
      have hblanks := List.all_eq_true.mp hlead
      have hc : isBlank c = true := hblanks c List.mem_cons_self
      have hlead : Text.allBlank lead = true :=
        List.all_eq_true.mpr fun x hx => hblanks x (List.mem_cons_of_mem c hx)
      have hpasses := hstyle.passesOver (isMark_of_isBlank hc)
      rw [List.cons_append,
        codeMask_cons_of_plain (commentStarts_cons_of_passesOver hstyle hpasses _) hpasses.1,
        ih hlead, Text.trimRight_append_trimRight]
      rfl

theorem codeMask_of_allBlank (hstyle : style.IsOrdinary) (h : line.allBlank = true) :
    style.codeMask line = [] := by
  have hnil : style.codeMask [] = [] := by
    rw [codeMask, splitComment_nil]
    rfl
  have hmask := codeMask_append_of_allBlank hstyle h []
  rw [List.append_nil, hnil, List.append_nil] at hmask
  rw [hmask]
  exact Text.trimRight_append_of_allBlank h []

/-- What stands behind a line shows in its mask as blanks, or not at all if the line is cut off. -/
theorem sameCode_codeMask_append (hstyle : style.IsOrdinary)
    (htrail : ∀ c ∈ trail, style.PassesOver c) (htrail' : ∀ c ∈ trail', style.PassesOver c)
    (hblank : style.cutsOff line = false → trail.allBlank = true ∧ trail'.allBlank = true) :
    style.SameCode (style.codeMask (line ++ trail)) (style.codeMask (line ++ trail')) := by
  induction line using style.readInduction with
  | nil =>
      obtain ⟨hblank, hblank'⟩ := hblank style.cutsOff_nil
      rw [List.nil_append, List.nil_append, codeMask_of_allBlank hstyle hblank,
        codeMask_of_allBlank hstyle hblank']
      exact .same []
  | comment c rest hcomment =>
      have hstarts {trail : Text} (h : ∀ c ∈ trail, style.PassesOver c) :
          style.codeMask (c :: rest ++ trail) = [] :=
        codeMask_of_commentStarts ((commentStarts_append_trail h (c :: rest)).trans hcomment)
      rw [hstarts htrail, hstarts htrail']
      exact .same []
  | plain c rest hcomment hquote ih =>
      have hplain {trail : Text} (h : ∀ c ∈ trail, style.PassesOver c) :
          style.codeMask (c :: rest ++ trail) =
            Text.trimRight ([c] ++ style.codeMask (rest ++ trail)) :=
        codeMask_cons_of_plain ((commentStarts_append_trail h (c :: rest)).trans hcomment) hquote
      rw [cutsOff_cons_of_plain hcomment hquote] at hblank
      rw [hplain htrail, hplain htrail']
      exact (ih hblank).trimRight_append hstyle [c]
  | closed quote interior after hquote hliteral ih =>
      rw [cutsOff_of_closed hstyle.backslash hliteral] at hblank
      rw [List.append_assoc, List.append_assoc,
        codeMask_of_closed hstyle.backslash (hliteral.append_trail htrail),
        codeMask_of_closed hstyle.backslash (hliteral.append_trail htrail')]
      exact (ih hblank).trimRight_append hstyle _
  | cutOff quote rest hquote hcomment hopen =>
      have hcut {trail : Text} (h : ∀ c ∈ trail, style.PassesOver c) :
          style.codeMask (quote :: rest ++ trail) =
            quote :: List.replicate (rest ++ trail).length maskChar :=
        codeMask_of_staysOpen hstyle hquote
          ((commentStarts_append_trail h (quote :: rest)).trans hcomment)
          (hopen.append_trail h hquote hcomment)
      rw [hcut htrail, hcut htrail']
      exact .cutOff [] hquote _ _

theorem sameCode_trim_codeMask (hstyle : style.IsOrdinary) (h : line.trim = line'.trim) :
    style.SameCode (style.codeMask line).trim (style.codeMask line').trim := by
  have hlead {lead t : Text} (hlead : lead.allBlank = true) :
      (style.codeMask (lead ++ t)).trim = (style.codeMask t).trim := by
    rw [codeMask_append_of_allBlank hstyle hlead, Text.trim_trimRight, Text.trim_append_left hlead]
  obtain ⟨lead, trail, hblank, htrail, hline⟩ := Text.exists_trim_eq line
  obtain ⟨lead', trail', hblank', htrail', hline'⟩ := Text.exists_trim_eq line'
  rw [hline, hline', hlead hblank, hlead hblank', h]
  exact (sameCode_codeMask_append hstyle (hstyle.passesOver_of_allBlank htrail)
    (hstyle.passesOver_of_allBlank htrail') fun _ => ⟨htrail, htrail'⟩).trim hstyle

end SameCode

section Verdicts

theorem getLast?_cutOff_ne (hquote : quote ∈ style.quotes) (hc : c ∉ style.quotes)
    (hmask : c ≠ maskChar) (front : Text) (n : Nat) :
    (front ++ quote :: List.replicate n maskChar).getLast? ≠ some c := by
  rw [List.getLast?_append_of_ne_nil _ (List.cons_ne_nil _ _)]
  intro hlast
  rcases List.mem_cons.mp (List.mem_of_getLast? hlast) with rfl | hmem
  · exact hc hquote
  · exact hmask (List.eq_of_mem_replicate hmem)

variable (h : style.SameCode t t')
include h

theorem SameCode.head?_eq : t.head? = t'.head? := by
  cases h with
  | same t => rfl
  | cutOff front hquote n n' =>
      rw [List.head?_append, List.head?_append]
      rfl

theorem SameCode.isEmpty_eq : t.isEmpty = t'.isEmpty := by
  cases h with
  | same t => rfl
  | cutOff front hquote n n' => cases front <;> rfl

theorem SameCode.getLast?_eq_some_iff (hc : c ∉ style.quotes) (hmask : c ≠ maskChar) :
    t.getLast? = some c ↔ t'.getLast? = some c := by
  cases h with
  | same t => rfl
  | cutOff front hquote n n' =>
      exact iff_of_false (getLast?_cutOff_ne hquote hc hmask front n)
        (getLast?_cutOff_ne hquote hc hmask front n')

theorem SameCode.count_eq (hmask : c ≠ maskChar) : t.count c = t'.count c := by
  cases h with
  | same t => rfl
  | cutOff front hquote n n' =>
      have hnone (n : Nat) : (List.replicate n maskChar).count c = 0 :=
        List.count_eq_zero.mpr fun hmem => hmask (List.eq_of_mem_replicate hmem)
      rw [List.count_append, List.count_append, List.count_cons, List.count_cons, hnone, hnone]

theorem SameCode.mem_iff (hmask : c ≠ maskChar) : c ∈ t ↔ c ∈ t' := by
  rw [← List.count_pos_iff, ← List.count_pos_iff, h.count_eq hmask]

theorem SameCode.startsWithAny_eq {parts : List Text}
    (hparts : ∀ part ∈ parts, ∀ quote ∈ style.quotes, quote ∉ part) :
    t.startsWithAny parts = t'.startsWithAny parts := by
  cases h with
  | same t => rfl
  | cutOff front hquote n n' =>
      have hfree := fun part hpart => hparts part hpart _ hquote
      rw [Text.startsWithAny_append_cons hfree, Text.startsWithAny_append_cons hfree]

/-- A verdict that each text with the same front and the same quote passes tells nothing of them
apart. -/
theorem SameCode.eq_of_forall {verdict : Text → Bool}
    (hverdict : ∀ quote ∈ style.quotes, ∀ front n n',
      verdict (front ++ quote :: List.replicate n maskChar) = true →
        verdict (front ++ quote :: List.replicate n' maskChar) = true) :
    verdict t = verdict t' := by
  cases h with
  | same t => rfl
  | cutOff front hquote n n' =>
      rw [Bool.eq_iff_iff]
      exact ⟨hverdict _ hquote front n n', hverdict _ hquote front n' n⟩

end Verdicts

end LiteralStyle

end LineLint
