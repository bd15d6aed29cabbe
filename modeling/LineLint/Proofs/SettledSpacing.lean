import LineLint.Proofs.SettledPieces
import LineLint.Proofs.SoundLayout
import LineLint.Proofs.SpacingReports

/-!
# Operator spacing settles in one step

On the spaced line every operator that is set off has single spaces beside it, and no call is left.
To space the line again changes nothing, and the rule reports nothing on it.
-/

namespace LineLint

open Cell (codes codes_append codes_cons)

namespace OperatorSpacing

variable {r : OperatorSpacing} {line : Text}

section Gaps

variable {front back : List Piece} {p : Piece}

theorem keyword_eq_none (h : r.IsRegular)
    (hsplit : (r.reading (r.normalize line).line).pieces = front ++ p :: back) :
    p.keyword = none := by
  have hcells := codeCells_eq_of_split h hsplit
  obtain ⟨c, others, hcons⟩ :=
    List.exists_cons_of_ne_nil (isSound_of_split h hsplit).cells_ne_nil
  rw [hcons, List.cons_append] at hcells
  rw [Piece.keyword, hcons]
  exact keyword_spaced h hcells

theorem gap_eq_space (h : r.IsRegular)
    (hsplit : (r.reading (r.normalize line).line).pieces = front ++ p :: back)
    (hcodes : codes p.gap = [' ']) : p.gap = [Cell.space] := by
  obtain ⟨c, others, hcons, hc, hnil⟩ := List.map_eq_cons_iff.mp hcodes
  obtain rfl := List.map_eq_nil_iff.mp hnil
  have hcells := codeCells_eq_of_split h hsplit
  rw [hcons, List.append_assoc, List.singleton_append] at hcells
  have hkeyword := keyword_spaced h hcells
  obtain ⟨hgap, hmasked⟩ := (isSound_of_split h hsplit).gap c (by rw [hcons]; simp)
  have hplain := hgap.notProtected
  rw [hcons]
  obtain ⟨code, masked, isProtected, keyword⟩ := c
  cases hkeyword
  cases hplain
  obtain rfl : code = ' ' := hc
  obtain rfl : masked = ' ' := hmasked
  rfl

theorem gap_of_isSetOff (h : r.IsRegular)
    (hsplit : (r.reading (r.normalize line).line).pieces = front ++ p :: back)
    (hset : p.isSetOff = true) : p.gap = [Cell.space] := by
  refine gap_eq_space h hsplit ?_
  obtain ⟨front', p', back', hsplit', hplace, hrest⟩ := exists_place_of_isSetOff h hsplit hset
  obtain ⟨hset', -⟩ := isSetOff_of_place h hsplit hset hsplit' hplace hrest
  obtain ⟨cells, x, hfront, hx⟩ := exists_solid_of_isSetOff h hsplit hset
  obtain ⟨cells', y, hfront', hy⟩ := exists_solid_of_isSetOff h hsplit' hset'
  have hsound := isSound_of_mem h line
  rw [hsplit'] at hsound
  obtain ⟨others, hspread⟩ :=
    exists_concat_spread (fun q hq => hsound q (List.mem_append_left _ hq)) hfront' false
  have hshown := hplace.codes_eq
  rw [hfront, hspread, Piece.newGap, if_pos hset', codes_append, codes_append, codes_append,
    codes_append, List.append_assoc, List.append_assoc] at hshown
  exact Text.eq_of_trailing_blanks hshown
    (isSpaceOrTab_codes (isSound_of_split h hsplit).gap) (List.forall_mem_singleton.mpr rfl) hx hy

/-- Behind an operator that is set off on the spaced line stands one space, if anything follows. -/
theorem gap_of_endsSetOff (h : r.IsRegular)
    (hsplit : (r.reading (r.normalize line).line).pieces = front ++ p :: back)
    (hends : endsSetOff false front = true) : p.gap = [Cell.space] := by
  obtain ⟨-, -, hsolid⟩ := kept_of_endsSetOff h hsplit hends
  obtain ⟨front, q, rfl, hset⟩ := exists_concat_of_endsSetOff hends
  rw [List.append_assoc, List.singleton_append] at hsplit
  obtain ⟨front', q', back', hsplit', hplace, hrest⟩ := exists_place_of_isSetOff h hsplit hset
  obtain ⟨hset', hbehind⟩ := isSetOff_of_place h hsplit hset hsplit' hplace hrest
  rw [List.append_cons] at hsplit
  have hsound := isSound_of_split h hsplit
  obtain ⟨c, others, hcons⟩ := List.exists_cons_of_ne_nil hsound.cells_ne_nil
  have hc : isSpaceOrTab c.code = false := hsolid c (by rw [hcons]; rfl)
  have hshown := hbehind.codes_eq
  cases back' with
  | nil =>
      -- nothing but blanks follows the operator on the line
      have hblank : isSpaceOrTab c.code = true := by
        refine isSpaceOrTab_codes (gap_tail h line) c.code ?_
        rw [spread_nil, join_nil, List.nil_append] at hshown
        rw [← hshown, join_cons, hcons]
        simp
      rw [hblank] at hc
      cases hc
  | cons m back' =>
      rw [List.append_cons] at hsplit'
      obtain ⟨hkept, hkeyword, hsolid'⟩ :=
        kept_of_endsSetOff h hsplit' (by rw [endsSetOff_concat, hset'])
      obtain ⟨d, others', hcons'⟩ :=
        List.exists_cons_of_ne_nil (isSound_of_split h hsplit').cells_ne_nil
      have hd : isSpaceOrTab d.code = false := hsolid' d (by rw [hcons']; rfl)
      have hnew : m.newGap true = [Cell.space] := by
        simp [Piece.newGap, callGap, hkept, hkeyword]
      rw [spread_cons, hnew, join_cons, join_cons, hcons, hcons'] at hshown
      simp only [codes_append, codes_cons, List.append_assoc, List.cons_append] at hshown
      exact gap_eq_space h hsplit (Text.eq_of_leading_blanks hshown (isSpaceOrTab_codes hsound.gap)
        (List.forall_mem_singleton.mpr rfl) hc hd)

theorem newGap_eq_gap (h : r.IsRegular)
    (hsplit : (r.reading (r.normalize line).line).pieces = front ++ p :: back) :
    p.newGap (endsSetOff false front) = p.gap := by
  have hkeyword : p.keyword = none := keyword_eq_none h hsplit
  cases hset : p.isSetOff with
  | true => rw [Piece.newGap, if_pos hset, gap_of_isSetOff h hsplit hset]
  | false =>
      cases hends : endsSetOff false front with
      | false => exact Piece.newGap_of_kept hset hkeyword
      | true => simp [Piece.newGap, callGap, hset, hkeyword, gap_of_endsSetOff h hsplit hends]

theorem isTight_eq_false (h : r.IsRegular)
    (hsplit : (r.reading (r.normalize line).line).pieces = front ++ p :: back) :
    p.isTight = false := by
  rcases (isPlaced_of_split h hsplit).shape with hsingle | ⟨token, htoken⟩
  · exact hsingle.notTight
  · cases hset : p.isSetOff with
    | false => rw [htoken.isTight_eq, hset, Bool.false_and]
    | true =>
        have hspace : ∀ c ∈ [Cell.space], isSpaceOrTab c.masked = true :=
          List.forall_mem_singleton.mpr rfl
        have hne : [Cell.space] ≠ [] := List.cons_ne_nil _ _
        have hbefore : tightBefore (backward (join front ++ p.gap)) = false := by
          rw [gap_of_isSetOff h hsplit hset]
          exact tightBefore_backward_gap hne hspace _
        have hafter :
            tightAfter (join back ++ (r.reading (r.normalize line).line).tail) = false := by
          cases back with
          | nil =>
              cases htail : (r.reading (r.normalize line).line).tail with
              | nil => rfl
              | cons c tail =>
                  have hgap := isSpaceOrTab_masked (gap_tail h (r.normalize line).line)
                  rw [htail] at hgap
                  have htight := tightAfter_gap (List.cons_ne_nil c tail) hgap []
                  rwa [List.append_nil] at htight
          | cons q back =>
              rw [List.append_cons] at hsplit
              rw [join_cons, gap_of_endsSetOff h hsplit (by rw [endsSetOff_concat, hset]),
                List.append_assoc, List.append_assoc]
              exact tightAfter_gap hne hspace _
        rw [htoken.isTight_eq, hset, Bool.true_and]
        exact Bool.or_eq_false_iff.mpr ⟨hbefore, hafter⟩

end Gaps

section Settled

theorem normalize_normalize (h : r.IsRegular) (line : Text) :
    r.normalize (r.normalize line).line = ⟨(r.normalize line).line, [], []⟩ := by
  have hspread : spread false (r.reading (r.normalize line).line).pieces =
      (r.reading (r.normalize line).line).pieces :=
    spread_eq_self fun front p back hsplit => newGap_eq_gap h hsplit
  have hspaced :
      (r.reading (r.normalize line).line).spaced = r.codeCells (r.normalize line).line := by
    rw [Reading.spaced, hspread]
    exact (reads_reading h _).cells_eq
  have htight : (r.reading (r.normalize line).line).tightOperators = [] := by
    refine List.map_eq_nil_iff.mpr (List.filter_eq_nil_iff.mpr fun p hp => ?_)
    obtain ⟨front, back, hsplit⟩ := List.append_of_mem hp
    simp [isTight_eq_false h hsplit]
  have hcalls : (r.reading (r.normalize line).line).calls = [] := by
    refine List.filterMap_eq_nil_iff.mpr fun p hp => ?_
    obtain ⟨front, back, hsplit⟩ := List.append_of_mem hp
    exact keyword_eq_none h hsplit
  rw [normalize_eq h (r.normalize line).line, hspaced, htight, hcalls, codeCells, Cell.codes_ofCode,
    r.style.splitComment_append]

/-- A line that the rule proposes is one that it does not report, and that it leaves as it is. -/
theorem settles_run_rule (hr : r ∈ builtin) (lines : List Text) :
    ∃ ds, r.rule.run lines = .ok ds ∧ ∀ d ∈ ds, ∃ new, d.replacement = some new ∧
      r.rule.run [new] = .ok [] ∧ r.normalize new = ⟨new, [], []⟩ := by
  have h := isRegular_of_mem_builtin r hr
  have hsound : r.rule.IsSound := OperatorSpacing.isSound fun token ht => (h.operators token ht).1
  obtain ⟨ds, hrun⟩ := hsound.runs lines
  refine ⟨ds, hrun, fun d hd => ?_⟩
  obtain ⟨-, -, -, hnew⟩ := exists_normalize_of_mem hrun hd
  have hsettled := normalize_normalize h d.snippet
  exact ⟨_, hnew, run_rule_eq_nil (List.forall_mem_singleton.mpr hsettled), hsettled⟩

theorem settles_run_rule_tightSum :
    Python.spacing ∈ builtin ∧
      (∃ ds, Python.spacing.rule.run [tightSum] = .ok ds ∧
        Python.spacing.tightReport 0 ['='] tightSum ∈ ds ∧
        ∀ d ∈ ds, ∃ new, d.replacement = some new ∧ Python.spacing.rule.run [new] = .ok [] ∧
          Python.spacing.normalize new = ⟨new, [], []⟩) ∧
      (Python.spacing.normalize tightSum).line = "\tx = 1 + 'a=b'  # a=b".toList := by
  have hspacing : Python.spacing ∈ builtin := by simp [builtin]
  have hsorted : Python.spacing.table.byLength = _ := Python.byLength_operators
  have hnew : (Python.spacing.normalize tightSum).operators = [['='], ['+']] ∧
      (Python.spacing.normalize tightSum).line = "\tx = 1 + 'a=b'  # a=b".toList := by
    rw [normalize, hsorted]
    decide +kernel
  obtain ⟨ds, hrun, hsettles⟩ := settles_run_rule hspacing [tightSum]
  have hreport : Python.spacing.tightReport 0 ['='] tightSum ∈ ds :=
    tightReport_mem hrun rfl (by decide +kernel) hnew.1
  exact ⟨hspacing, ⟨ds, hrun, hreport, hsettles⟩, hnew.2⟩

end Settled

end OperatorSpacing

end LineLint
