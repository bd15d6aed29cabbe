import LineLint.Proofs.RescannedLines

/-!
# Lines that are cut off

A line that opens a literal and does not close it is cut off: the literal runs to its end. What is
put behind such a line goes into the literal. Behind any other line without a comment, what begins
with a character that is passed over is read on its own.
-/

namespace LineLint

namespace LiteralStyle

variable {style : LiteralStyle} {line t rest more trail literal interior after : Text}
  {quote c x : Char}

section Trails

def PassesOver (style : LiteralStyle) (c : Char) : Prop :=
  c ∉ style.quotes ∧ c ∉ style.lineComment.getD []

instance (style : LiteralStyle) (c : Char) : Decidable (style.PassesOver c) :=
  inferInstanceAs (Decidable (_ ∧ _))

theorem IsOrdinary.passesOver (hstyle : style.IsOrdinary) (hc : isMark c = false) :
    style.PassesOver c := by
  refine ⟨hstyle.notMem_quotes hc, fun hmem => ?_⟩
  cases hmark : style.lineComment with
  | none =>
      rw [hmark] at hmem
      cases hmem
  | some mark =>
      rw [hmark] at hmem
      have hc' := ((hstyle.lineComment mark hmark).2 c hmem).1
      rw [hc] at hc'
      cases hc'

theorem IsOrdinary.passesOver_of_allBlank (hstyle : style.IsOrdinary) (h : trail.allBlank = true) :
    ∀ c ∈ trail, style.PassesOver c :=
  fun c hc => hstyle.passesOver (isMark_of_isBlank (List.all_eq_true.mp h c hc))

/-- Where comments start is told by what stands before a character that is passed over. -/
theorem commentStarts_append_cons (hx : style.PassesOver x) (t more : Text) :
    style.commentStarts (t ++ x :: more) = style.commentStarts t := by
  have hnone := hx.2
  unfold commentStarts
  cases hmark : style.lineComment with
  | none => rfl
  | some mark =>
      rw [hmark] at hnone
      exact Text.isPrefixOf_append_cons hnone t more

theorem commentStarts_cons_of_passesOver (hstyle : style.IsOrdinary) (hx : style.PassesOver x)
    (more : Text) : style.commentStarts (x :: more) = false :=
  (commentStarts_append_cons hx [] more).trans hstyle.commentStarts_nil

theorem commentStarts_append_trail (htrail : ∀ c ∈ trail, style.PassesOver c) (t : Text) :
    style.commentStarts (t ++ trail) = style.commentStarts t := by
  cases trail with
  | nil => rw [List.append_nil]
  | cons x more => exact commentStarts_append_cons (htrail x List.mem_cons_self) t more

theorem IsLiteralBefore.append_cons (h : style.IsLiteralBefore literal after)
    (hx : style.PassesOver x) (more : Text) :
    style.IsLiteralBefore literal (after ++ x :: more) := by
  apply isLiteralBefore_of_closes
  · rw [← List.append_assoc, commentStarts_append_cons hx, h.commentStarts_eq]
  · refine h.closes.congr (Nat.le_refl _) fun quote hquote hhead => ?_
    cases after with
    | nil =>
        obtain rfl := Option.some.inj hhead
        exact absurd hquote hx.1
    | cons c after => exact hhead

theorem IsLiteralBefore.append_trail (h : style.IsLiteralBefore literal after)
    (htrail : ∀ c ∈ trail, style.PassesOver c) :
    style.IsLiteralBefore literal (after ++ trail) := by
  cases trail with
  | nil => rwa [List.append_nil]
  | cons x more => exact h.append_cons (htrail x List.mem_cons_self) more

theorem StaysOpen.append_trail (htrail : ∀ c ∈ trail, style.PassesOver c)
    (hquote : quote ∈ style.quotes) (hcomment : style.commentStarts (quote :: rest) = false)
    (hopen : style.StaysOpen (quote :: rest)) : style.StaysOpen (quote :: (rest ++ trail)) := by
  rw [← commentStarts_append_trail htrail, List.cons_append] at hcomment
  cases hclose : closeLength? (style.delimiterAt quote (quote :: (rest ++ trail)))
      ((rest ++ trail).drop
        ((style.delimiterAt quote (quote :: (rest ++ trail))).length - 1)) with
  | none => exact staysOpen_of_closeLength? hquote hclose
  | some k =>
      exfalso
      obtain ⟨body, after, hsplit, hliteral⟩ := exists_isLiteralBefore hcomment hquote hclose
      obtain ⟨other, hother, interior, hshape⟩ := hliteral.closes.exists_interior
      have hcloses : style.Closes (quote :: rest ++ trail) (quote :: body).length := by
        rw [List.cons_append, hsplit]
        exact hliteral.closes
      -- its closing quote is not in the trail, so that it stands within the literal that is cut off
      have hwithin : (quote :: body).length ≤ (quote :: rest).length := by
        have hwhole : quote :: rest ++ trail = quote :: body ++ after := by
          rw [List.cons_append, hsplit, List.cons_append]
        rcases List.append_eq_append_iff.mp hwhole with ⟨more, hlonger, htail⟩ | ⟨more, hsame, -⟩
        · have hlast : (quote :: body).getLast? = some other := by
            rw [hshape, ← List.cons_append, List.getLast?_concat]
          rw [hlonger] at hlast
          by_cases hmore : more = []
          · rw [hlonger, hmore, List.append_nil]
          · rw [List.getLast?_append_of_ne_nil _ hmore] at hlast
            have hmem : other ∈ trail := by
              rw [htail]
              exact List.mem_append_left after (List.mem_of_getLast? hlast)
            exact absurd hother (htrail other hmem).1
        · rw [hsame, List.length_append]
          exact Nat.le_add_right _ _
      have hclosed : style.Closes (quote :: rest ++ []) (quote :: body).length :=
        hcloses.congr hwithin fun _ _ hhead => by cases hhead
      rw [List.append_nil] at hclosed
      exact hopen.not_closes hclosed

end Trails

section CutOff

/-- Whether a line is cut off in a literal: one that nothing closes runs to its end. -/
def cutsOff (style : LiteralStyle) (line : Text) : Bool :=
  (style.literals line).any fun s => s.stop == line.length && !style.isClosed line s

theorem cutsOff_of_literals_eq_nil (h : style.literals line = []) : style.cutsOff line = false := by
  rw [cutsOff, h]
  rfl

theorem cutsOff_nil (style : LiteralStyle) : style.cutsOff [] = false :=
  cutsOff_of_literals_eq_nil (by rw [literals, scan, scanFrom])

theorem literals_of_commentStarts (h : style.commentStarts (c :: rest) = true) :
    style.literals (c :: rest) = [] := by
  rw [literals, scan, scanFrom, if_pos h]

theorem cutsOff_of_commentStarts (h : style.commentStarts (c :: rest) = true) :
    style.cutsOff (c :: rest) = false :=
  cutsOff_of_literals_eq_nil (literals_of_commentStarts h)

theorem any_shift_eq (front rest : Text) :
    (((style.literals rest).map (Span.shift front.length)).any fun s =>
      s.stop == (front ++ rest).length && !style.isClosed (front ++ rest) s) =
        style.cutsOff rest := by
  rw [List.any_map, cutsOff]
  congr 1
  funext s
  have hlast : ((s.shift front.length).stop == (front ++ rest).length) =
      (s.stop == rest.length) := by
    rw [Bool.eq_iff_iff, beq_iff_eq, beq_iff_eq, List.length_append]
    exact Nat.add_left_cancel_iff
  rw [Function.comp_apply, isClosed_shift, hlast]

theorem cutsOff_cons_of_plain (hcomment : style.commentStarts (c :: rest) = false)
    (hquote : c ∉ style.quotes) : style.cutsOff (c :: rest) = style.cutsOff rest := by
  rw [cutsOff, literals_cons_of_plain hcomment hquote]
  exact any_shift_eq [c] rest

theorem cutsOff_of_closed (hquotes : '\\' ∉ style.quotes)
    (h : style.IsLiteralBefore literal after) :
    style.cutsOff (literal ++ after) = style.cutsOff after := by
  have hfirst : (literal.length == (literal ++ after).length &&
      !style.isClosed (literal ++ after) ⟨0, literal.length⟩) = false := by
    cases after with
    | nil =>
        have hcloses := h.closes
        rw [List.append_nil] at hcloses ⊢
        rw [(isClosed_iff_closes hquotes (Or.inl hcloses)).mpr hcloses]
        exact Bool.and_false _
    | cons c after => simp
  rw [cutsOff, h.literals_eq, List.any_cons, hfirst, Bool.false_or]
  exact any_shift_eq literal after

theorem cutsOff_of_staysOpen (hquotes : '\\' ∉ style.quotes)
    (hcomment : style.commentStarts t = false) (hopen : style.StaysOpen t) :
    style.cutsOff t = true := by
  have hliterals : style.literals t = [⟨0, t.length⟩] :=
    congrArg LiteralScan.spans (scan_of_staysOpen hcomment hopen)
  have hclosed : style.isClosed t ⟨0, t.length⟩ = false := by
    rw [Bool.eq_false_iff, Ne, isClosed_iff_closes hquotes (Or.inr hopen)]
    exact hopen.not_closes
  rw [cutsOff, hliterals]
  simp [hclosed]

variable (hstyle : style.IsOrdinary)
include hstyle

theorem cutsOff_code (line : Text) :
    style.cutsOff (style.splitComment line).1 = style.cutsOff line := by
  induction line using style.readInduction with
  | nil => rw [splitComment_nil]
  | comment c rest hcomment =>
      rw [splitComment_of_commentStarts hcomment, cutsOff_of_commentStarts hcomment, cutsOff_nil]
  | plain c rest hcomment hquote ih =>
      rw [splitComment_cons_of_plain hcomment hquote,
        cutsOff_cons_of_plain (commentStarts_cons_code hcomment) hquote,
        cutsOff_cons_of_plain hcomment hquote, ih]
  | closed quote interior after hquote hliteral ih =>
      rw [hliteral.splitComment_eq, cutsOff_of_closed hstyle.backslash hliteral.before_code,
        cutsOff_of_closed hstyle.backslash hliteral, ih]
  | cutOff quote rest hquote hcomment hopen =>
      rw [splitComment_of_staysOpen hcomment hopen]

theorem splitComment_snd_of_cutsOff (h : style.cutsOff line = true) :
    (style.splitComment line).2 = [] := by
  induction line using style.readInduction with
  | nil => rw [splitComment_nil]
  | comment c rest hcomment =>
      rw [cutsOff_of_commentStarts hcomment] at h
      cases h
  | plain c rest hcomment hquote ih =>
      rw [cutsOff_cons_of_plain hcomment hquote] at h
      rw [splitComment_cons_of_plain hcomment hquote]
      exact ih h
  | closed quote interior after hquote hliteral ih =>
      rw [cutsOff_of_closed hstyle.backslash hliteral] at h
      rw [hliteral.splitComment_eq]
      exact ih h
  | cutOff quote rest hquote hcomment hopen => rw [splitComment_of_staysOpen hcomment hopen]

theorem literals_of_passesOver (htrail : ∀ c ∈ trail, style.PassesOver c) :
    style.literals trail = [] := by
  induction trail with
  | nil => rw [literals, scan, scanFrom]
  | cons c trail ih =>
      obtain ⟨hc, htrail⟩ := List.forall_mem_cons.mp htrail
      rw [literals_cons_of_plain (commentStarts_cons_of_passesOver hstyle hc trail) hc.1, ih htrail]
      rfl

/-- What is passed over in front of a line is masked apart from it. -/
theorem maskLiterals_trail_append (htrail : ∀ c ∈ trail, style.PassesOver c) (rest : Text) :
    style.maskLiterals (trail ++ rest) = trail ++ style.maskLiterals rest := by
  induction trail with
  | nil => rfl
  | cons c trail ih =>
      obtain ⟨hc, htrail⟩ := List.forall_mem_cons.mp htrail
      have hstarts := commentStarts_cons_of_passesOver hstyle hc (trail ++ rest)
      rw [List.cons_append, maskLiterals_cons_of_plain hstarts hc.1, ih htrail, List.cons_append]

theorem maskLiterals_of_passesOver (htrail : ∀ c ∈ trail, style.PassesOver c) :
    style.maskLiterals trail = trail := by
  have hmask := maskLiterals_trail_append hstyle htrail []
  rwa [maskLiterals_nil, List.append_nil] at hmask

theorem splitComment_trail_append (htrail : ∀ c ∈ trail, style.PassesOver c) (rest : Text) :
    style.splitComment (trail ++ rest) =
      (trail ++ (style.splitComment rest).1, (style.splitComment rest).2) := by
  induction trail with
  | nil => rfl
  | cons c trail ih =>
      obtain ⟨hc, htrail⟩ := List.forall_mem_cons.mp htrail
      have hstarts := commentStarts_cons_of_passesOver hstyle hc (trail ++ rest)
      rw [List.cons_append, splitComment_cons_of_plain hstarts hc.1, ih htrail]
      rfl

/-- What is put behind a line and passed over does not change whether it is cut off. -/
theorem cutsOff_append_trail (htrail : ∀ c ∈ trail, style.PassesOver c) (line : Text) :
    style.cutsOff (line ++ trail) = style.cutsOff line := by
  induction line using style.readInduction with
  | nil =>
      rw [List.nil_append, cutsOff_of_literals_eq_nil (literals_of_passesOver hstyle htrail),
        cutsOff_nil]
  | comment c rest hcomment =>
      have hstarts := (commentStarts_append_trail htrail (c :: rest)).trans hcomment
      rw [cutsOff_of_commentStarts hcomment]
      exact cutsOff_of_commentStarts hstarts
  | plain c rest hcomment hquote ih =>
      have hstarts := (commentStarts_append_trail htrail (c :: rest)).trans hcomment
      rw [cutsOff_cons_of_plain hcomment hquote, ← ih]
      exact cutsOff_cons_of_plain hstarts hquote
  | closed quote interior after hquote hliteral ih =>
      rw [List.append_assoc, cutsOff_of_closed hstyle.backslash (hliteral.append_trail htrail), ih,
        cutsOff_of_closed hstyle.backslash hliteral]
  | cutOff quote rest hquote hcomment hopen =>
      have hstarts := (commentStarts_append_trail htrail (quote :: rest)).trans hcomment
      rw [cutsOff_of_staysOpen hstyle.backslash hcomment hopen]
      exact cutsOff_of_staysOpen hstyle.backslash hstarts
        (hopen.append_trail htrail hquote hcomment)

omit hstyle in
/-- Where a longer line has no comment, none starts before the part that was put behind it. -/
theorem splitComment_snd_of_append_trail (htrail : ∀ c ∈ trail, style.PassesOver c)
    (h : (style.splitComment (line ++ trail)).2 = []) : (style.splitComment line).2 = [] := by
  induction line using style.readInduction with
  | nil => rw [splitComment_nil]
  | comment c rest hcomment =>
      have hstarts := (commentStarts_append_trail htrail (c :: rest)).trans hcomment
      rw [List.cons_append] at hstarts h
      rw [splitComment_of_commentStarts hstarts] at h
      cases h
  | plain c rest hcomment hquote ih =>
      have hstarts := (commentStarts_append_trail htrail (c :: rest)).trans hcomment
      rw [List.cons_append] at hstarts h
      rw [splitComment_cons_of_plain hstarts hquote] at h
      rw [splitComment_cons_of_plain hcomment hquote]
      exact ih h
  | closed quote interior after hquote hliteral ih =>
      rw [List.append_assoc, (hliteral.append_trail htrail).splitComment_eq] at h
      rw [hliteral.splitComment_eq]
      exact ih h
  | cutOff quote rest hquote hcomment hopen => rw [splitComment_of_staysOpen hcomment hopen]

end CutOff

section Whole

/-- A line that is read to its end, outside literals: it has no comment, and it is not cut off. -/
structure IsWhole (style : LiteralStyle) (t : Text) : Prop where
  code : (style.splitComment t).2 = []
  closed : style.cutsOff t = false

variable (hstyle : style.IsOrdinary)
include hstyle

/-- Induction on such a line as it is read, from left to right. -/
@[elab_as_elim]
theorem IsWhole.readInduction {motive : Text → Prop} (nil : motive [])
    (plain : ∀ c rest, style.commentStarts (c :: rest) = false → c ∉ style.quotes →
      motive rest → motive (c :: rest))
    (closed : ∀ quote interior after,
      style.IsLiteralBefore (quote :: (interior ++ [quote])) after → motive after →
      motive (quote :: (interior ++ [quote]) ++ after))
    (h : style.IsWhole t) : motive t := by
  induction t using style.readInduction with
  | nil => exact nil
  | comment c rest hcomment =>
      have hcode := h.code
      rw [splitComment_of_commentStarts hcomment] at hcode
      cases hcode
  | plain c rest hcomment hquote ih =>
      refine plain c rest hcomment hquote (ih ⟨?_, ?_⟩)
      · have hcode := h.code
        rwa [splitComment_cons_of_plain hcomment hquote] at hcode
      · rw [← cutsOff_cons_of_plain hcomment hquote, h.closed]
  | closed quote interior after hquote hliteral ih =>
      refine closed quote interior after hliteral (ih ⟨?_, ?_⟩)
      · have hcode := h.code
        rwa [hliteral.splitComment_eq] at hcode
      · rw [← cutsOff_of_closed hstyle.backslash hliteral, h.closed]
  | cutOff quote rest hquote hcomment hopen =>
      have hclosed := h.closed
      rw [cutsOff_of_staysOpen hstyle.backslash hcomment hopen] at hclosed
      cases hclosed

variable (h : style.IsWhole t) (hx : style.PassesOver x)
include h hx

theorem IsWhole.splitComment_append_cons (more : Text) :
    style.splitComment (t ++ x :: more) =
      (t ++ (style.splitComment (x :: more)).1, (style.splitComment (x :: more)).2) := by
  refine h.readInduction hstyle rfl (fun c rest hcomment hquote ih => ?_)
    (fun quote interior after hliteral ih => ?_)
  · have hstarts := (commentStarts_append_cons hx (c :: rest) more).trans hcomment
    rw [List.cons_append] at hstarts ⊢
    rw [splitComment_cons_of_plain hstarts hquote, ih]
    rfl
  · rw [List.append_assoc, (hliteral.append_cons hx more).splitComment_eq, ih, List.append_assoc]

theorem IsWhole.maskLiterals_append_cons (more : Text) :
    style.maskLiterals (t ++ x :: more) =
      style.maskLiterals t ++ style.maskLiterals (x :: more) := by
  refine h.readInduction hstyle rfl (fun c rest hcomment hquote ih => ?_)
    (fun quote interior after hliteral ih => ?_)
  · have hstarts := (commentStarts_append_cons hx (c :: rest) more).trans hcomment
    rw [List.cons_append] at hstarts ⊢
    rw [maskLiterals_cons_of_plain hstarts hquote, ih, maskLiterals_cons_of_plain hcomment hquote,
      List.cons_append]
  · rw [List.append_assoc, maskLiterals_of_closed hstyle.backslash (hliteral.append_cons hx more),
      ih, maskLiterals_of_closed hstyle.backslash hliteral,
      List.append_assoc _ _ (style.maskLiterals (x :: more))]

/-- No literal of the longer line holds the place where the text begins. -/
theorem IsWhole.outside_append_cons (more : Text) :
    ∀ s ∈ style.literals (t ++ x :: more), ¬(s.start ≤ t.length ∧ t.length < s.stop) := by
  refine h.readInduction hstyle ?_ (fun c rest hcomment hquote ih => ?_)
    (fun quote interior after hliteral ih => ?_)
  · rw [List.nil_append,
      literals_cons_of_plain (commentStarts_cons_of_passesOver hstyle hx more) hx.1]
    rintro _ hs ⟨hstart, -⟩
    obtain ⟨s, -, rfl⟩ := List.mem_map.mp hs
    simp [Span.shift] at hstart
  · have hstarts := (commentStarts_append_cons hx (c :: rest) more).trans hcomment
    rw [List.cons_append] at hstarts ⊢
    rw [literals_cons_of_plain hstarts hquote]
    rintro _ hs ⟨hstart, hstop⟩
    obtain ⟨s, hinner, rfl⟩ := List.mem_map.mp hs
    simp only [Span.shift, List.length_cons] at hstart hstop
    exact ih s hinner (by omega)
  · rw [List.append_assoc, (hliteral.append_cons hx more).literals_eq, List.length_append]
    rintro _ hs ⟨hstart, hstop⟩
    rcases List.mem_cons.mp hs with rfl | hs
    · exact absurd hstop (Nat.not_lt.mpr (Nat.le_add_right _ _))
    · obtain ⟨s, hinner, rfl⟩ := List.mem_map.mp hs
      simp only [Span.shift] at hstart hstop
      exact ih s hinner (by omega)

end Whole

end LiteralStyle

end LineLint
