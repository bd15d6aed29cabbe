import LineLint.Proofs.LiteralFrames
import LineLint.Proofs.ReadLines

/-!
# Lines that are scanned again

A line is scanned, cut at its comment and masked, and what comes of it is scanned again. The cut goes
through no literal, so that the code has the literals of the line. The mask leaves each literal its
two quotes and nothing that could end it before, so that it has the same literals and the same
comment as the line.
-/

namespace LineLint

namespace LiteralStyle

variable {style : LiteralStyle} {line rest interior after : Text} {quote c : Char} {n : Nat}

section Code

theorem splitComment_of_staysOpen (hcomment : style.commentStarts line = false)
    (hopen : style.StaysOpen line) : style.splitComment line = (line, []) := by
  rw [splitComment, scan_of_staysOpen hcomment hopen]

theorem splitComment_fst_prefix (style : LiteralStyle) (line : Text) :
    (style.splitComment line).1 <+: line :=
  ⟨_, style.splitComment_append line⟩

theorem commentStarts_shortened {t : Text} (h : t <+: line)
    (hcomment : style.commentStarts line = false) : style.commentStarts t = false := by
  rw [List.prefix_iff_eq_take.mp h]
  exact commentStarts_take hcomment

theorem IsLiteralBefore.shortened {literal t : Text} (h : style.IsLiteralBefore literal after)
    (ht : t <+: after) : style.IsLiteralBefore literal t := by
  have hwhole : literal ++ t <+: literal ++ after := (List.prefix_append_right_inj _).mpr ht
  apply isLiteralBefore_of_closes (commentStarts_shortened hwhole h.commentStarts_eq)
  apply h.closes.congr (Nat.le_refl _)
  intro quote hquote hhead
  obtain ⟨more, rfl⟩ := ht
  rw [List.head?_append, hhead]
  rfl

theorem splitComment_nil (style : LiteralStyle) : style.splitComment [] = ([], []) := by
  rw [splitComment, scan, scanFrom]

theorem commentStarts_cons_code (hcomment : style.commentStarts (c :: rest) = false) :
    style.commentStarts (c :: (style.splitComment rest).1) = false := by
  apply commentStarts_shortened _ hcomment
  exact List.cons_prefix_cons.mpr ⟨rfl, style.splitComment_fst_prefix rest⟩

theorem IsLiteralBefore.before_code {literal : Text} (h : style.IsLiteralBefore literal after) :
    style.IsLiteralBefore literal (style.splitComment after).1 :=
  h.shortened (style.splitComment_fst_prefix after)

theorem splitComment_code (style : LiteralStyle) (line : Text) :
    style.splitComment (style.splitComment line).1 = ((style.splitComment line).1, []) := by
  induction line using style.readInduction with
  | nil => rw [splitComment_nil, splitComment_nil]
  | comment c rest hcomment => rw [splitComment_of_commentStarts hcomment, splitComment_nil]
  | plain c rest hcomment hquote ih =>
      rw [splitComment_cons_of_plain hcomment hquote,
        splitComment_cons_of_plain (commentStarts_cons_code hcomment) hquote, ih]
  | closed quote interior after hquote hliteral ih =>
      rw [hliteral.splitComment_eq, hliteral.before_code.splitComment_eq, ih]
  | cutOff quote rest hquote hcomment hopen =>
      have hwhole := splitComment_of_staysOpen hcomment hopen
      rw [hwhole, hwhole]

theorem splitComment_comment (style : LiteralStyle) (line : Text) :
    style.splitComment (style.splitComment line).2 = ([], (style.splitComment line).2) := by
  induction line using style.readInduction with
  | nil => rw [splitComment_nil, splitComment_nil]
  | comment c rest hcomment =>
      rw [splitComment_of_commentStarts hcomment, splitComment_of_commentStarts hcomment]
  | plain c rest hcomment hquote ih =>
      rw [splitComment_cons_of_plain hcomment hquote]
      exact ih
  | closed quote interior after hquote hliteral ih =>
      rw [hliteral.splitComment_eq]
      exact ih
  | cutOff quote rest hquote hcomment hopen =>
      rw [splitComment_of_staysOpen hcomment hopen, splitComment_nil]

theorem maskLiterals_code_prefix (hquotes : '\\' ∉ style.quotes) (line : Text) :
    style.maskLiterals (style.splitComment line).1 <+: style.maskLiterals line := by
  induction line using style.readInduction with
  | nil =>
      have hcode : (style.splitComment []).1 = [] := congrArg Prod.fst style.splitComment_nil
      exact hcode.symm ▸ List.prefix_rfl
  | comment c rest hcomment =>
      rw [splitComment_of_commentStarts hcomment]
      exact List.nil_prefix
  | plain c rest hcomment hquote ih =>
      rw [splitComment_cons_of_plain hcomment hquote,
        maskLiterals_cons_of_plain (commentStarts_cons_code hcomment) hquote,
        maskLiterals_cons_of_plain hcomment hquote]
      exact List.cons_prefix_cons.mpr ⟨rfl, ih⟩
  | closed quote interior after hquote hliteral ih =>
      rw [hliteral.splitComment_eq, maskLiterals_of_closed hquotes hliteral.before_code,
        maskLiterals_of_closed hquotes hliteral]
      exact (List.prefix_append_right_inj _).mpr ih
  | cutOff quote rest hquote hcomment hopen =>
      have hcode : (style.splitComment (quote :: rest)).1 = quote :: rest :=
        congrArg Prod.fst (splitComment_of_staysOpen hcomment hopen)
      exact hcode.symm ▸ List.prefix_rfl

end Code

section Masks

theorem maskChar_ne (hstyle : style.IsOrdinary) (hquote : quote ∈ style.quotes) :
    quote ≠ maskChar := by
  rintro rfl
  exact hstyle.maskChar hquote

/-- The mask of a literal is a literal before the mask of what follows it. -/
theorem isLiteralBefore_masked (hstyle : style.IsOrdinary) (hquote : quote ∈ style.quotes)
    (h : style.IsLiteralBefore (quote :: (interior ++ [quote])) after) :
    style.IsLiteralBefore (quote :: (List.replicate interior.length maskChar ++ [quote]))
      (style.maskLiterals after) := by
  apply isLiteralBefore_of_closes (hstyle.commentStarts_cons (fun _ => hquote) _)
  by_cases hempty : interior = []
  · subst hempty
    apply h.closes.congr (Nat.le_refl _)
    intro other _ hhead
    rwa [head?_maskLiterals hstyle.backslash] at hhead
  · let f : LiteralFrame := { before := [], quote, after := [] }
    have hinterior : f.IsInterior (List.replicate interior.length maskChar) := by
      refine ⟨?_, ?_, ?_⟩
      · simpa using hempty
      · exact fun hmem => maskChar_ne hstyle hquote (List.eq_of_mem_replicate hmem)
      · exact fun hmem => absurd (List.eq_of_mem_replicate hmem) (by decide)
    have hsingle : f.isTriple = true → style.tripleQuotes = true := fun htriple => by cases htriple
    exact LiteralFrame.closes_literal hquote hstyle.backslash hsingle hinterior _

theorem staysOpen_masked (hstyle : style.IsOrdinary) (hquote : quote ∈ style.quotes) (n : Nat) :
    style.StaysOpen (quote :: List.replicate n maskChar) := by
  have hnone : quote ∉ List.replicate n maskChar := fun hmem =>
    maskChar_ne hstyle hquote (List.eq_of_mem_replicate hmem)
  refine ⟨[quote], List.replicate n maskChar, ⟨rfl, quote, hquote, ?_⟩, fun k hcloses => ?_⟩
  · rw [if_neg]
    rintro ⟨-, hbegins⟩
    have hmem := (List.cons_prefix_cons.mp hbegins).2.subset List.mem_cons_self
    exact hnone hmem
  · have hmem := hcloses.occurs.subset List.mem_cons_self
    exact hnone (List.mem_of_mem_drop hmem)

theorem scan_maskLiterals (hstyle : style.IsOrdinary) (line : Text) :
    style.scan (style.maskLiterals line) = style.scan line := by
  have hquotes := hstyle.backslash
  induction line using style.readInduction with
  | nil => rfl
  | comment c rest hcomment => rw [maskLiterals_of_commentStarts hcomment]
  | plain c rest hcomment hquote ih =>
      have hmasked := commentStarts_maskLiterals hstyle (c :: rest)
      rw [maskLiterals_cons_of_plain hcomment hquote, hcomment] at hmasked
      rw [maskLiterals_cons_of_plain hcomment hquote]
      calc style.scan (c :: style.maskLiterals rest)
          = (style.scan (style.maskLiterals rest)).shift 1 := scan_cons_of_plain hmasked hquote
        _ = (style.scan rest).shift 1 := by rw [ih]
        _ = style.scan (c :: rest) := (scan_cons_of_plain hcomment hquote).symm
  | closed quote interior after hquote hliteral ih =>
      have hlength : (quote :: (List.replicate interior.length maskChar ++ [quote])).length =
          (quote :: (interior ++ [quote])).length := by simp
      rw [maskLiterals_of_closed hquotes hliteral,
        (isLiteralBefore_masked hstyle hquote hliteral).scan_eq, hliteral.scan_eq, hlength, ih]
  | cutOff quote rest hquote hcomment hopen =>
      have hmasked := hstyle.commentStarts_cons (fun _ => hquote)
        (List.replicate rest.length maskChar)
      rw [maskLiterals_of_staysOpen hquotes hcomment hopen,
        scan_of_staysOpen hmasked (staysOpen_masked hstyle hquote _),
        scan_of_staysOpen hcomment hopen, List.length_cons, List.length_replicate,
        List.length_cons]

/-- A mask shows no more of itself than it does of the line. -/
theorem maskLiterals_maskLiterals (hstyle : style.IsOrdinary) (line : Text) :
    style.maskLiterals (style.maskLiterals line) = style.maskLiterals line := by
  have hquotes := hstyle.backslash
  induction line using style.readInduction with
  | nil => rfl
  | comment c rest hcomment => rw [maskLiterals_of_commentStarts hcomment,
      maskLiterals_of_commentStarts hcomment]
  | plain c rest hcomment hquote ih =>
      have hmasked := commentStarts_maskLiterals hstyle (c :: rest)
      rw [maskLiterals_cons_of_plain hcomment hquote, hcomment] at hmasked
      rw [maskLiterals_cons_of_plain hcomment hquote, maskLiterals_cons_of_plain hmasked hquote, ih]
  | closed quote interior after hquote hliteral ih =>
      rw [maskLiterals_of_closed hquotes hliteral,
        maskLiterals_of_closed hquotes (isLiteralBefore_masked hstyle hquote hliteral), ih,
        List.length_replicate]
  | cutOff quote rest hquote hcomment hopen =>
      have hmasked := hstyle.commentStarts_cons (fun _ => hquote)
        (List.replicate rest.length maskChar)
      rw [maskLiterals_of_staysOpen hquotes hcomment hopen,
        maskLiterals_of_staysOpen hquotes hmasked (staysOpen_masked hstyle hquote _),
        List.length_replicate]

end Masks

/-- Neither the cut at the comment nor the mask makes, ends or joins literals: the code of a line and
its mask are scanned as the line is. -/
theorem rescan_eq {a : Analyzer} (ha : a ∈ Registry.builtin.analyzers) (line : Text) :
    let style := a.profile.style
    let code := (style.splitComment line).1
    code ++ (style.splitComment line).2 = line ∧
      style.splitComment code = (code, []) ∧
      style.literals code = style.literals line ∧
      style.maskLiterals code <+: style.maskLiterals line ∧
      style.scan (style.maskLiterals line) = style.scan line ∧
      style.maskLiterals (style.maskLiterals line) = style.maskLiterals line := by
  intro style code
  have hstyle : style.IsOrdinary := Registry.isOrdinary_of_mem_builtin a ha
  refine ⟨?_, ?_, ?_, ?_, ?_, ?_⟩
  · exact style.splitComment_append line
  · exact style.splitComment_code line
  · exact style.literals_splitComment_fst line
  · exact maskLiterals_code_prefix hstyle.backslash line
  · exact scan_maskLiterals hstyle line
  · exact maskLiterals_maskLiterals hstyle line

def quotedComment : Text := "s = '''a 'b' # \\''''  # it's".toList

theorem rescan_eq_quotedComment : ∃ a ∈ Registry.builtin.analyzers,
    (a.profile.style.splitComment quotedComment).2 = "# it's".toList ∧
      a.profile.style.literals quotedComment = [⟨4, 20⟩] ∧
      a.profile.style.literals (a.profile.style.maskLiterals quotedComment) = [⟨4, 20⟩] := by
  let a : Analyzer := ⟨Python.profile, Python.rules⟩
  have ha : a ∈ Registry.builtin.analyzers := by simp [Registry.builtin, a]
  have hcomment : (a.profile.style.splitComment quotedComment).2 = "# it's".toList := by
    decide +kernel
  have hliterals : a.profile.style.literals quotedComment = [⟨4, 20⟩] := by decide +kernel
  obtain ⟨-, -, -, -, hscan, -⟩ := rescan_eq ha quotedComment
  refine ⟨a, ha, hcomment, hliterals, ?_⟩
  rw [← hliterals]
  exact congrArg LiteralScan.spans hscan

end LiteralStyle

end LineLint
