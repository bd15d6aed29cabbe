import LineLint.Proofs.CommaGaps
import LineLint.Proofs.SettledPieces
import LineLint.Proofs.SoundLayout
import LineLint.Proofs.SpacingReports

/-!
# Commas on the spaced line

The spaces behind commas leave the literals, the generic spans and the comment of a line what they
are: no literal and no generic span has such a space in it, and none comes about. What protects a
comma therefore protects it on the new line, and no comma is left that calls for a space.
-/

namespace LineLint

open Cell (codes)
open OperatorSpacing (Alike IsCode maskOf alike_of_eq)

namespace CommaSpacing

section Literals

variable {style : LiteralStyle} {comment : Text} {cells : List Cell}

theorem startsAs_codes_spaced (previous : Option Char) (after cells : List Cell) (t : Text) :
    Text.StartsAs (codes (spaced previous after cells) ++ t) (codes cells ++ t) := by
  induction cells generalizing previous with
  | nil => exact Text.startsAs_of_prefix (List.prefix_refl _)
  | cons cell cells ih =>
      rw [spaced, Cell.codes_cons, Cell.codes_append, Cell.codes_cons]
      rcases gapBehind_cases previous cell (cells ++ after) with hgap | ⟨hgap, -⟩
      · rw [hgap]
        exact (ih (some cell.masked)).append_left [cell.code]
      · rw [hgap]
        exact (Text.startsAs_blank_cons rfl _ _).append_left [cell.code]

theorem isEmpty_codes_spaced (previous : Option Char) (after cells : List Cell) :
    (codes (spaced previous after cells)).isEmpty = (codes cells).isEmpty := by
  cases cells <;> rfl

theorem isCode_spaced (hstyle : style.IsSolid) (h : IsCode style cells comment)
    (previous : Option Char) : IsCode style (spaced previous [] cells) comment := by
  -- a literal takes up many cells at once
  induction hn : cells.length using Nat.strong_induction_on generalizing cells previous with
  | _ n ih =>
      cases cells with
      | nil => exact h
      | cons cell rest =>
          by_cases hquote : cell.code ∈ style.quotes
          · rcases h.literal_cases hquote with ⟨body, back, rfl, hliteral⟩ | hprotected
            · rw [← List.cons_append] at h
              obtain ⟨-, hprotected, hcode⟩ := h.of_literal hstyle hliteral
              rw [← List.cons_append, spaced_append, spaced_of_calm fun c hc _ => hprotected c hc]
              have hback := ih back.length (by rw [← hn]; simp +arith) hcode
                (lastMasked previous (cell :: body)) rfl
              exact h.literal_append_congr hstyle hliteral hback
                (startsAs_codes_spaced _ _ _ _) (isEmpty_codes_spaced _ _ _)
            · rwa [spaced_of_calm fun c hc _ => hprotected c hc]
          · obtain ⟨hmasked, hcode⟩ := h.of_cons hquote
            have hrest := ih rest.length (by rw [← hn]; simp) hcode (some cell.masked) rfl
            have hgap : ∀ c ∈ gapBehind previous cell (rest ++ []), c.IsGap ∧ c.masked = c.code := by
              rcases gapBehind_cases previous cell (rest ++ []) with hgap | ⟨hgap, -⟩
              · rw [hgap]
                exact List.forall_mem_nil _
              · rw [hgap]
                exact List.forall_mem_singleton.mpr OperatorSpacing.Cell.isGap_space
            refine (hrest.gap_append hstyle hgap).cons hquote ?_ hmasked
            have hstarts := startsAs_codes_spaced previous [] (cell :: rest) comment
            exact LiteralStyle.commentStarts_congr hstyle hstarts h.commentStarts_eq

end Literals

section Line

variable {r : CommaSpacing} {line : Text} {before after : List Cell} {x : Cell}

theorem splitComment_normalize (hstyle : r.style.IsSolid) (line : Text) :
    r.style.splitComment (r.normalize line) =
      (codes (spaced none [] (r.codeCells line)), (r.style.splitComment line).2) := by
  rw [normalize_eq]
  exact (isCode_spaced hstyle (OperatorSpacing.isCode_ofCode ..) none).split_eq

theorem maskLiterals_normalize (hstyle : r.style.IsSolid) (line : Text) :
    r.style.maskLiterals (r.style.splitComment (r.normalize line)).1 =
      maskOf (spaced none [] (r.codeCells line)) := by
  rw [splitComment_normalize hstyle]
  exact (isCode_spaced hstyle (OperatorSpacing.isCode_ofCode ..) none).masked_eq

theorem alike_spaced (hstyle : r.style.IsSolid) (line : Text) :
    Alike (r.codeCells (r.normalize line)) (spaced none [] (r.codeCells line)) := by
  have hcode := congrArg Prod.fst (splitComment_normalize hstyle line)
  refine alike_of_eq (Cell.codes_ofCode.trans hcode) ?_
  rw [maskOf, codeCells, Cell.map_masked_ofCode, maskLiterals_normalize hstyle]

theorem masked_eq_code (hcells : r.codeCells line = before ++ x :: after)
    (hx : x.isProtected = false) : x.masked = x.code :=
  (Cell.isAt_of_split hcells).masked_eq_code hx

/-- A generic span is copied, since neither its name nor its brackets have a comma that calls for a
space, and no name comes to stand before it. -/
theorem exists_isGenericAt_spaced {first name inner outer last : List Cell}
    (hcells : r.codeCells line = first ++ (name ++ (inner ++ x :: outer ++ last)))
    (hprotected : ∀ d ∈ inner ++ x :: outer, d.isProtected = true)
    (hgeneric : ProtectedSpan.IsGenericAt (maskOf first) (maskOf name)
      (maskOf (inner ++ x :: outer)) (maskOf last)) :
    ∃ newFirst newLast,
      spaced none [] (r.codeCells line) =
        newFirst ++ (name ++ (inner ++ x :: outer ++ newLast)) ∧
      spaced none (x :: (outer ++ last)) (first ++ (name ++ inner)) =
        newFirst ++ (name ++ inner) ∧
      ProtectedSpan.IsGenericAt (maskOf newFirst) (maskOf name) (maskOf (inner ++ x :: outer))
        (maskOf newLast) := by
  have hname : ∀ d ∈ name, d.code = ',' → d.isProtected = true := by
    intro d hd hcomma
    obtain ⟨front, back, rfl⟩ := List.append_of_mem hd
    by_contra hnot
    have hplace : r.codeCells line =
        first ++ front ++ d :: (back ++ (inner ++ x :: outer ++ last)) := by
      rw [hcells]
      simp
    have hmasked := masked_eq_code hplace (by simpa using hnot)
    have hchar := hgeneric.isGeneric.nameChars d.masked (List.mem_map_of_mem hd)
    rw [hmasked, hcomma] at hchar
    exact absurd hchar (by decide)
  have hinner : ∀ d ∈ name ++ inner, d.code = ',' → d.isProtected = true := by
    refine List.forall_mem_append.mpr ⟨hname, fun d hd _ => ?_⟩
    exact hprotected d (List.mem_append_left _ hd)
  have hcalm : ∀ d ∈ name ++ (inner ++ x :: outer), d.code = ',' → d.isProtected = true :=
    List.forall_mem_append.mpr ⟨hname, fun d hd _ => hprotected d hd⟩
  refine ⟨spaced none (name ++ (inner ++ x :: outer ++ last)) first,
    spaced (lastMasked (lastMasked none first) (name ++ (inner ++ x :: outer))) [] last, ?_, ?_,
    ?_, hgeneric.isGeneric, hgeneric.exists_results⟩
  · rw [hcells, spaced_append, List.append_nil, ← List.append_assoc name, spaced_append,
      spaced_of_calm hcalm]
    simp only [List.append_assoc]
  · rw [spaced_append, spaced_of_calm hinner]
    simp only [List.append_assoc, List.cons_append]
  · have hprevious := hgeneric.previous
    rw [maskOf, List.getLast?_map, ← Option.or_none (o := (first.getLast?.map _))] at hprevious
    rw [maskOf, List.getLast?_map, ← Option.or_none (o := (List.getLast? _).map _)]
    exact any_lastMasked_spaced (by decide) hprevious

/-- A comma that the mask hides lies in a literal of the spaced code. -/
theorem exists_literal_of_hidden (hstyle : r.style.IsSolid)
    (hcells : r.codeCells line = before ++ x :: after) (hcomma : x.code = ',')
    (hhidden : x.masked = maskChar) :
    ∃ s ∈ r.style.literals (r.style.splitComment (r.normalize line)).1,
      s.start ≤ (spaced none (x :: after) before).length ∧
        (spaced none (x :: after) before).length < s.stop := by
  have hsplit := spaced_append none [] before (x :: after)
  rw [← hcells, List.append_nil, spaced] at hsplit
  have hat : (r.style.splitComment (r.normalize line)).1[
      (spaced none (x :: after) before).length]? = some ',' := by
    rw [congrArg Prod.fst (splitComment_normalize hstyle line), hsplit, ← hcomma]
    simp [codes]
  have hmasked : (r.style.maskLiterals (r.style.splitComment (r.normalize line)).1)[
      (spaced none (x :: after) before).length]? = some maskChar := by
    rw [maskLiterals_normalize hstyle, hsplit, ← hhidden]
    simp [maskOf]
  rcases LiteralStyle.eq_or_isInside hat hmasked with hsame | ⟨-, s, hs, hstart, hstop⟩
  · cases hsame
  · exact ⟨s, hs, Nat.le_of_lt hstart, hstop⟩

/-- A protected comma that the mask shows lies in the angle brackets of a generic span of the spaced
code. -/
theorem exists_anglePart_of_shown (hstyle : r.style.IsSolid) (hquotes : ',' ∉ r.style.quotes)
    (hcells : r.codeCells line = before ++ x :: after) (hx : x.isProtected = true)
    (hcomma : x.code = ',') (hshown : x.masked ≠ maskChar) :
    r.generics = true ∧ ∃ m ∈ ProtectedSpan.genericSpan.findAll
        (r.style.maskLiterals (r.style.splitComment (r.normalize line)).1),
      let part := ProtectedSpan.anglePart
        (r.style.maskLiterals (r.style.splitComment (r.normalize line)).1) m
      part.start ≤ (spaced none (x :: after) before).length ∧
        (spaced none (x :: after) before).length < part.stop := by
  have hmasked : x.masked = x.code := by
    have hplace := Cell.isAt_of_split hcells
    rcases LiteralStyle.eq_or_isInside hplace.code_eq hplace.masked_eq with hsame | ⟨hmask, -⟩
    · exact hsame
    · exact absurd hmask hshown
  obtain ⟨hgenerics, first, name, inner, outer, last, rfl, rfl, hprotected, hgeneric⟩ :=
    OperatorSpacing.exists_generic_of_ofCode hcells hx hshown (by rwa [hmasked, hcomma])
  obtain ⟨newFirst, newLast, hspaced, hplace, hnew⟩ :=
    exists_isGenericAt_spaced (by rw [hcells]; simp) hprotected hgeneric
  obtain ⟨m, hm, hstart, hstop⟩ := ProtectedSpan.exists_anglePart_holds hnew
  have hwhole : r.style.maskLiterals (r.style.splitComment (r.normalize line)).1 =
      maskOf newFirst ++ (maskOf name ++ (maskOf (inner ++ x :: outer) ++ maskOf newLast)) := by
    rw [maskLiterals_normalize hstyle, hspaced]
    simp [maskOf]
  rw [← hwhole] at hm hstart hstop
  refine ⟨hgenerics, m, hm, ?_⟩
  rw [hplace]
  simp only [maskOf, List.length_append, List.length_map, List.length_cons] at hstart hstop ⊢
  omega

theorem isProtected_spaced (hstyle : r.style.IsSolid) (hquotes : ',' ∉ r.style.quotes)
    (hcells : r.codeCells line = before ++ x :: after) (hx : x.isProtected = true)
    (hcomma : x.code = ',') :
    ∃ s ∈ ProtectedSpan.spans r.style r.generics (r.style.splitComment (r.normalize line)).1,
      s.start ≤ (spaced none (x :: after) before).length ∧
        (spaced none (x :: after) before).length < s.stop := by
  by_cases hhidden : x.masked = maskChar
  · obtain ⟨s, hs, hbounds⟩ := exists_literal_of_hidden hstyle hcells hcomma hhidden
    exact ⟨s, List.mem_append_left _ hs, hbounds⟩
  · obtain ⟨hgenerics, m, hm, hbounds⟩ := exists_anglePart_of_shown hstyle hquotes hcells hx hcomma
      hhidden
    refine ⟨_, List.mem_append_right _ ?_, hbounds⟩
    rw [if_pos hgenerics]
    exact List.mem_map_of_mem hm

end Line

section Settled

variable {r : CommaSpacing} {line : Text} {front cells newFront newBack : List Cell}

theorem head?_spaced (previous : Option Char) (after cells : List Cell) :
    (spaced previous after cells).head? = cells.head? := by
  cases cells <;> rfl

/-- A digit before a comma makes a space less needed. -/
theorem needsSpace_of_digit {previous previous' : Option Char} {next : Char}
    (hdigit : previous.any isDigit = true → previous'.any isDigit = true)
    (h : needsSpace previous' next = true) : needsSpace previous next = true := by
  rw [needsSpace_iff] at h ⊢
  exact ⟨h.1, h.2.1, fun hdigits => h.2.2 ⟨hdigit hdigits.1, hdigits.2⟩⟩

theorem gapBehind_ne_nil_iff {previous : Option Char} {cell : Cell} {after : List Cell} :
    gapBehind previous cell after ≠ [] ↔ cell.code = ',' ∧ cell.isProtected = false ∧
      ∃ next, after.head?.map (·.masked) = some next ∧ needsSpace previous next = true := by
  rw [gapBehind, ite_ne_right_iff]
  simp [Option.any_eq_true, and_assoc]

/-- A place on a line and the place on the spaced line that it comes to. A digit before the one is
still before the other. -/
structure ComesTo (r : CommaSpacing) (line : Text) (front cells newFront newBack : List Cell) :
    Prop where
  cells_eq : r.codeCells line = front ++ cells
  new_eq : r.codeCells (r.normalize line) = newFront ++ newBack
  length_eq : newFront.length = (spaced none cells front).length
  digit : (lastMasked none front).any isDigit = true → (lastMasked none newFront).any isDigit = true

namespace ComesTo

variable {c d g : Cell} {rest ds newBack : List Cell}

theorem alike (h : ComesTo r line front cells newFront newBack) (hstyle : r.style.IsSolid) :
    Alike newBack (spaced (lastMasked none front) [] cells) := by
  have hwhole := alike_spaced hstyle line
  rw [h.cells_eq, h.new_eq, spaced_append, List.append_nil] at hwhole
  exact hwhole.of_append h.length_eq

theorem length_succ (h : ComesTo r line front (c :: rest) newFront newBack) :
    (spaced none rest (front ++ [c])).length =
      newFront.length + 1 + (gapBehind (lastMasked none front) c rest).length := by
  rw [spaced_append, h.length_eq, spaced, spaced]
  simp +arith

theorem kept (h : ComesTo r line front (c :: rest) newFront (d :: ds))
    (hgap : gapBehind (lastMasked none front) c rest = []) (hmasked : d.masked = c.masked) :
    ComesTo r line (front ++ [c]) rest (newFront ++ [d]) ds where
  cells_eq := by rw [h.cells_eq, List.append_cons]
  new_eq := by rw [h.new_eq, List.append_cons]
  length_eq := by
    rw [h.length_succ, hgap]
    simp
  digit := by
    rw [lastMasked_concat, lastMasked_concat, hmasked]
    exact id

theorem parted (h : ComesTo r line front (c :: rest) newFront (d :: g :: ds))
    (hgap : gapBehind (lastMasked none front) c rest = [Cell.space]) (hcomma : c.masked = ',') :
    ComesTo r line (front ++ [c]) rest (newFront ++ [d] ++ [g]) ds where
  cells_eq := by rw [h.cells_eq, List.append_cons]
  new_eq := by rw [h.new_eq, List.append_cons, List.append_cons]
  length_eq := by
    rw [h.length_succ, hgap]
    simp
  digit := by
    rw [lastMasked_concat, hcomma]
    exact fun hdigit => absurd hdigit (by decide)

/-- No space is missing behind a cell of the new line: what stood behind the old cell stands there
still, or the space that was missing. -/
theorem gapBehind_eq_nil (h : ComesTo r line front (c :: rest) newFront (d :: ds))
    (hstyle : r.style.IsSolid) (hquotes : ',' ∉ r.style.quotes) (hshown : d.shown = c.shown)
    (hhead : gapBehind (lastMasked none front) c rest = [] →
      ds.head?.map (·.masked) = rest.head?.map (·.masked))
    (hspace : gapBehind (lastMasked none front) c rest ≠ [] →
      ds.head?.map (·.masked) = some ' ') :
    gapBehind (lastMasked none newFront) d ds = [] := by
  by_contra htight
  obtain ⟨hcomma, hnot, next, hnext, hneeds⟩ := gapBehind_ne_nil_iff.mp htight
  have hcode : c.code = ',' := (congrArg Prod.fst hshown).symm.trans hcomma
  by_cases hgap : gapBehind (lastMasked none front) c rest = []
  · have hprotected : c.isProtected = true := by
      by_contra hplain
      refine gapBehind_ne_nil_iff.mpr ⟨hcode, by simpa using hplain, next, ?_, ?_⟩ hgap
      · rw [← hhead hgap, hnext]
      · exact needsSpace_of_digit h.digit hneeds
    have hspan := isProtected_spaced hstyle hquotes h.cells_eq hprotected hcode
    rw [← h.length_eq, ← (Cell.isAt_of_split h.new_eq).isProtected_iff, hnot] at hspan
    cases hspan
  · rw [hspace hgap, Option.some.injEq] at hnext
    rw [← hnext] at hneeds
    exact absurd hneeds (by simp [needsSpace, isBlank])

theorem spaced_eq (h : ComesTo r line front cells newFront newBack) (hstyle : r.style.IsSolid)
    (hquotes : ',' ∉ r.style.quotes) : spaced (lastMasked none newFront) [] newBack = newBack := by
  induction cells generalizing front newFront newBack with
  | nil =>
      rw [List.eq_nil_of_length_eq_zero (h.alike hstyle).length_eq]
      rfl
  | cons c rest ih =>
      have halike := h.alike hstyle
      rw [spaced, List.append_nil] at halike
      obtain ⟨d, ds, rfl, hshown, hbehind⟩ := List.map_eq_cons_iff.mp halike
      rcases gapBehind_cases (lastMasked none front) c rest with hgap | ⟨hgap, hcomma, hnot⟩
      · rw [hgap, List.nil_append] at hbehind
        have hsettled := h.gapBehind_eq_nil hstyle hquotes hshown
          (fun _ => by
            have hheads := congrArg List.head? hbehind
            rw [List.head?_map, List.head?_map, head?_spaced] at hheads
            have hsecond := congrArg (Option.map Prod.snd) hheads
            rwa [Option.map_map, Option.map_map] at hsecond)
          (fun hne => absurd hgap hne)
        have hrest := ih (h.kept hgap (congrArg Prod.snd hshown))
        rw [lastMasked_concat] at hrest
        rw [spaced, List.append_nil, hsettled, hrest, List.nil_append]
      · rw [hgap] at hbehind
        obtain ⟨g, ds, rfl, hspace, hbehind⟩ := List.map_eq_cons_iff.mp hbehind
        have hsettled := h.gapBehind_eq_nil hstyle hquotes hshown
          (fun hnil => by rw [hgap] at hnil; cases hnil)
          (fun _ => congrArg (Option.some ∘ Prod.snd) hspace)
        have hcalm : gapBehind (some d.masked) g ds = [] := by
          refine gapBehind_of_calm fun hcomma => ?_
          rw [show g.code = ' ' from congrArg Prod.fst hspace] at hcomma
          cases hcomma
        have hrest := ih (h.parted hgap ((masked_eq_code h.cells_eq hnot).trans hcomma))
        rw [lastMasked_concat] at hrest
        rw [spaced, List.append_nil, hsettled, List.nil_append, spaced, List.append_nil, hcalm,
          hrest, List.nil_append]

end ComesTo

theorem normalize_normalize (hstyle : r.style.IsSolid) (hquotes : ',' ∉ r.style.quotes)
    (line : Text) : r.normalize (r.normalize line) = r.normalize line := by
  have hsettled : spaced (lastMasked none []) [] (r.codeCells (r.normalize line)) =
      r.codeCells (r.normalize line) := by
    have hstart : ComesTo r line [] (r.codeCells line) [] (r.codeCells (r.normalize line)) :=
      ⟨rfl, rfl, rfl, id⟩
    exact hstart.spaced_eq hstyle hquotes
  have hcodes : codes (r.codeCells (r.normalize line)) =
      (r.style.splitComment (r.normalize line)).1 := Cell.codes_ofCode
  rw [normalize_eq r (r.normalize line)]
  change codes (spaced (lastMasked none []) [] _) ++ _ = _
  rw [hsettled, hcodes, r.style.splitComment_append]

theorem mem_check {i : Nat} {f : Finding} (h : f ∈ r.check i line) :
    f = { index := i, replacement := r.normalize line } := by
  unfold check at h
  split_ifs at h with hskips
  · cases h
  · simp only at h
    split_ifs at h
    · cases h
    · exact List.mem_singleton.mp h

theorem run_rule_eq_nil {lines : List Text} (h : ∀ line ∈ lines, r.normalize line = line) :
    r.rule.run lines = .ok [] := by
  refine Rule.run_eq_nil fun i line hline => ?_
  unfold check
  split_ifs
  · rfl
  · simp [h line hline]

theorem replacement_eq_of_mem {lines : List Text} {ds : List Diagnostic} {d : Diagnostic}
    (hrun : r.rule.run lines = .ok ds) (hd : d ∈ ds) :
    d.replacement = some (r.normalize d.snippet) := by
  obtain ⟨i, line, hline, f, hcheck, hreport⟩ := Rule.exists_report_of_mem hrun hd
  obtain ⟨-, hquoted, -, -, hnew⟩ := Spec.report_eq_ok hreport
  obtain rfl := mem_check hcheck
  obtain rfl := Option.some.inj (hline.symm.trans hquoted)
  exact hnew

end Settled

section Builtin

def builtin : List CommaSpacing :=
  [{ style := Python.profile.style, generics := false, skipped := ["import ".toList] },
   { style := Cpp.profile.style, skipped := [['#']] }]

theorem perm_registered :
    (builtin.map fun r => (r.style, r.rule)).Perm (Registry.registered Spec.commaSpacing.code) :=
  .of_eq rfl

theorem isSolid_of_mem_builtin : ∀ r ∈ builtin, r.style.IsSolid := by
  simp only [builtin, List.forall_mem_cons]
  refine ⟨?_, ?_, List.forall_mem_nil _⟩
  · exact (OperatorSpacing.isRegular_of_mem_builtin Python.spacing
      (by simp [OperatorSpacing.builtin])).solid
  · exact (OperatorSpacing.isRegular_of_mem_builtin
      { table := Cpp.operators, style := Cpp.profile.style, skipped := [['#']] }
      (by simp [OperatorSpacing.builtin])).solid

theorem comma_notMem_quotes : ∀ r ∈ builtin, ',' ∉ r.style.quotes := by
  decide

/-- Comma spacing puts a space behind each comma that calls for one, and changes nothing else. After
that no comma calls for one, and the line that the rule proposes is not reported. -/
theorem normalize_settles {r : CommaSpacing} (hr : r ∈ builtin) :
    (∀ line : Text, r.normalize line =
        ((r.style.splitComment line).1.mapIdx fun i c =>
          if r.IsTight (r.style.splitComment line).1 i then [c, ' '] else [c]).flatten ++
          (r.style.splitComment line).2 ∧
        r.normalize (r.normalize line) = r.normalize line) ∧
      ∀ lines : List Text, ∃ ds, r.rule.run lines = .ok ds ∧ ∀ d ∈ ds,
        d.replacement = some (r.normalize d.snippet) ∧
          r.rule.run [r.normalize d.snippet] = .ok [] := by
  have hsettled (line : Text) : r.normalize (r.normalize line) = r.normalize line :=
    normalize_normalize (isSolid_of_mem_builtin r hr) (comma_notMem_quotes r hr) line
  refine ⟨fun line => ⟨normalize_eq_flatten r line, hsettled line⟩, fun lines => ?_⟩
  obtain ⟨ds, hrun⟩ := r.isSound.runs lines
  refine ⟨ds, hrun, fun d hd => ⟨replacement_eq_of_mem hrun hd, ?_⟩⟩
  exact run_rule_eq_nil (List.forall_mem_singleton.mpr (hsettled d.snippet))

def tightCall : Text := "f(a,'b,c',d<int,int>(1,2))  // e,f".toList

theorem normalize_settles_tightCall :
    ∃ r ∈ builtin, r.normalize tightCall = "f(a, 'b,c', d<int,int>(1,2))  // e,f".toList ∧
      r.normalize (r.normalize tightCall) = r.normalize tightCall := by
  let r : CommaSpacing := { style := Cpp.profile.style, skipped := [['#']] }
  have hr : r ∈ builtin := by simp [builtin, r]
  have hnew : r.normalize tightCall = "f(a, 'b,c', d<int,int>(1,2))  // e,f".toList := by
    decide +kernel
  exact ⟨r, hr, hnew, ((normalize_settles hr).1 tightCall).2⟩

end Builtin

end CommaSpacing

end LineLint
