import LineLint.Proofs.LineReading

/-!
# Copied parts

A part of a line that starts and ends with characters that are no blanks stands in the spaced line
exactly if no gap within it is changed.
-/

namespace LineLint

open Cell (codes codes_append codes_cons)

/-- What comes before a character is told by the characters before it that are no blanks. -/
theorem Text.eq_of_solid_eq {s t rest more : Text} {x y : Char}
    (h : s ++ x :: rest = t ++ y :: more) (hx : isSpaceOrTab x = false)
    (hy : isSpaceOrTab y = false) (hsolid : s.solid = Text.solid t) : s = t := by
  have hnil {middle u v : Text} {z w : Char} (hz : isSpaceOrTab z = false)
      (hmiddle : z :: u = middle ++ w :: v) (hlost : Text.solid middle = []) : middle = [] := by
    cases middle with
    | nil => rfl
    | cons c middle =>
        obtain ⟨rfl, -⟩ := List.cons.inj hmiddle
        simp [Text.solid, hz] at hlost
  rcases List.append_eq_append_iff.mp h with ⟨middle, rfl, hrest⟩ | ⟨middle, rfl, hrest⟩
  · rw [Text.solid_append, List.self_eq_append_right] at hsolid
    rw [hnil hx hrest hsolid, List.append_nil]
  · rw [Text.solid_append, List.append_right_eq_self] at hsolid
    rw [hnil hy hrest hsolid, List.append_nil]

/-- A part that starts with a character that is no blank is copied if it goes on in the new line as
it does in the old one. -/
theorem Span.isCopied_iff_prefix {line new front first old rest : Text} {x : Char} {s : Span}
    (hline : line = front ++ x :: old) (hnew : new = first ++ x :: rest)
    (hx : isSpaceOrTab x = false) (hfirst : first.solid = Text.solid front)
    (hsolid : new.solid = line.solid) (hstart : s.start = front.length) (hlt : s.start < s.stop) :
    s.IsCopied line new ↔ old.take (s.stop - s.start - 1) <+: rest := by
  obtain ⟨n, hn⟩ : ∃ n, s.stop = front.length + 1 + n := Nat.exists_eq_add_of_le (by omega)
  have hcount : s.stop - s.start - 1 = n := by omega
  have htake : line.take s.start = front := by rw [hline, hstart, List.take_left]
  have hdrop : line.drop s.stop = old.drop n := by
    rw [hline, hn, Nat.add_assoc, Nat.add_comm 1, List.drop_length_add_append]
    rfl
  have hslice : line.slice s.start s.stop = x :: old.take n := by
    rw [Text.slice, hline, hn, hstart, Nat.add_assoc, Nat.add_comm 1, List.take_length_add_append,
      List.drop_left]
    rfl
  rw [Span.IsCopied, hslice, htake, hdrop, hcount]
  constructor
  · rintro ⟨before, after, hcopy, hbefore, -⟩
    rw [hnew, List.append_assoc, List.cons_append] at hcopy
    have hsame := Text.eq_of_solid_eq hcopy hx hx (hfirst.trans hbefore.symm)
    rw [hsame] at hcopy
    exact ⟨after, (List.cons.inj (List.append_cancel_left hcopy)).2.symm⟩
  · rintro ⟨after, rfl⟩
    refine ⟨first, after, by rw [hnew]; simp, hfirst, ?_⟩
    have hold : Text.solid (old.take n ++ after) = Text.solid (old.take n ++ old.drop n) := by
      rw [hnew, hline, Text.solid_append, Text.solid_append, hfirst] at hsolid
      rw [List.take_append_drop]
      simpa [Text.solid, hx] using List.append_cancel_left hsolid
    rw [Text.solid_append, Text.solid_append] at hold
    exact List.append_cancel_left hold

theorem Cell.length_codes (cells : List Cell) : (codes cells).length = cells.length :=
  List.length_map _

namespace OperatorSpacing

def Reading.ChangesGapAt (d : Reading) (i : Nat) : Prop :=
  ∃ front p back, d.pieces = front ++ p :: back ∧ (join front ++ p.gap).length = i ∧
    codes (p.newGap (endsSetOff false front)) ≠ codes p.gap

variable {r : OperatorSpacing} {line : Text}

section Prefixes

variable {ps : List Piece} {t more : Text} {behind : Bool}

theorem eq_nil_of_prefix_gap {gap : Text} (hgap : ∀ c ∈ gap, isSpaceOrTab c = true) (h : t <+: gap)
    (hlast : ∀ c ∈ t.getLast?, isSpaceOrTab c = false) : t = [] := by
  rcases List.eq_nil_or_concat t with rfl | ⟨t, c, rfl⟩
  · rfl
  · have hc := hlast c (by simp)
    rw [hgap c (h.subset (by simp))] at hc
    cases hc

/-- A text that ends with no blank goes on behind the gap that it starts with. -/
theorem exists_eq_gap_append {gap : Text} (hgap : ∀ c ∈ gap, isSpaceOrTab c = true)
    (h : t <+: gap ++ more) (hne : t ≠ []) (hlast : ∀ c ∈ t.getLast?, isSpaceOrTab c = false) :
    ∃ rest, t = gap ++ rest ∧ rest <+: more ∧ rest ≠ [] := by
  obtain ⟨rest, rfl, hrest⟩ := (Text.prefix_append_cases h).resolve_left fun hwithin =>
    hne (eq_nil_of_prefix_gap hgap hwithin hlast)
  refine ⟨rest, rfl, hrest, fun hnil => hne ?_⟩
  rw [hnil, List.append_nil] at hlast ⊢
  exact eq_nil_of_prefix_gap hgap (List.prefix_refl _) hlast

theorem gap_eq_of_begins {gap gap' cells rest : Text} (hgap : ∀ c ∈ gap, isSpaceOrTab c = true)
    (hgap' : ∀ c ∈ gap', isSpaceOrTab c = true) (hne : cells ≠ [])
    (hsolid : ∀ c ∈ cells.head?, isSpaceOrTab c = false) (hrest : rest <+: cells ++ t)
    (hrestNe : rest ≠ []) (h : gap ++ rest <+: gap' ++ (cells ++ more)) : gap = gap' := by
  obtain ⟨c, others, rfl⟩ := List.exists_cons_of_ne_nil hne
  obtain ⟨x, rest, rfl⟩ := List.exists_cons_of_ne_nil hrestNe
  have hc : isSpaceOrTab c = false := hsolid c rfl
  obtain ⟨behind, hbehind⟩ := h
  rw [List.cons_append] at hrest hbehind
  obtain ⟨rfl, -⟩ := List.cons_prefix_cons.mp hrest
  rw [List.append_assoc, List.cons_append] at hbehind
  exact Text.eq_of_leading_blanks hbehind hgap hgap' hc hc

theorem forall_split_cons {α : Type} {x : α} {xs : List α} {motive : List α → α → List α → Prop} :
    (∀ front y back, x :: xs = front ++ y :: back → motive front y back) ↔
      motive [] x xs ∧ ∀ front y back, xs = front ++ y :: back → motive (x :: front) y back := by
  refine ⟨fun h => ⟨h [] x xs rfl, fun front y back hsplit => h (x :: front) y back ?_⟩, ?_⟩
  · rw [hsplit]
    rfl
  · rintro ⟨hfirst, hrest⟩ front y back hsplit
    cases front with
    | nil =>
        obtain ⟨rfl, rfl⟩ := List.cons.inj hsplit
        exact hfirst
    | cons z front =>
        obtain ⟨rfl, hxs⟩ := List.cons.inj hsplit
        exact hrest front y back hxs

/-- What the pieces start with, up to a character that is no blank, the spread pieces start with
exactly if the gaps on the way are kept. -/
theorem prefix_spread_iff (hsound : ∀ p ∈ ps, p.IsSound)
    (hsolid : ∀ front p back, ps = front ++ p :: back →
      codes (p.newGap (endsSetOff behind front)) ≠ codes p.gap →
        ∀ c ∈ p.cells.head?, isSpaceOrTab c.code = false)
    (ht : t <+: codes (join ps) ++ more) (hlast : ∀ c ∈ t.getLast?, isSpaceOrTab c = false) :
    t <+: codes (join (spread behind ps)) ++ more ↔
      ∀ front p back, ps = front ++ p :: back → (join front ++ p.gap).length < t.length →
        codes (p.newGap (endsSetOff behind front)) = codes p.gap := by
  induction ps generalizing behind t with
  | nil => exact iff_of_true ht fun front p back hsplit => by simp at hsplit
  | cons p ps ih =>
      obtain ⟨hp, hps⟩ := List.forall_mem_cons.mp hsound
      obtain ⟨hfirst, hlater⟩ := forall_split_cons.mp hsolid
      simp only [endsSetOff_cons] at hlater
      by_cases hempty : t = []
      · rw [hempty]
        exact iff_of_true List.nil_prefix fun _ _ _ _ hlt => absurd hlt (Nat.not_lt_zero _)
      rw [join_cons, codes_append, codes_append, List.append_assoc, List.append_assoc] at ht
      obtain ⟨rest, rfl, hwithin, hne⟩ :=
        exists_eq_gap_append (isSpaceOrTab_codes hp.gap) ht hempty hlast
      rw [forall_split_cons, spread_cons, join_cons, codes_append, codes_append, List.append_assoc,
        List.append_assoc]
      have hplace : (join [] ++ p.gap).length < (codes p.gap ++ rest).length := by
        have hpos := List.length_pos_of_ne_nil hne
        simp only [join_nil, List.nil_append, List.length_append, codes, List.length_map]
        omega
      by_cases hsame : codes (p.newGap behind) = codes p.gap
      · -- the gap is kept, and the question is one about what follows it
        rw [hsame, List.prefix_append_right_inj, endsSetOff_nil, and_iff_right fun _ => hsame]
        have hlength (front : List Piece) (q : Piece) : (join (p :: front) ++ q.gap).length =
            p.gap.length + (p.cells.length + (join front ++ q.gap).length) := by
          simp only [join_cons, List.length_append]
          omega
        rcases Text.prefix_append_cases hwithin with hcells | ⟨others, rfl, hothers⟩
        · refine iff_of_true (hcells.trans (List.prefix_append _ _)) fun front q _ _ hlt => ?_
          have hbound := hcells.length_le
          simp only [hlength, List.length_append, codes, List.length_map] at hlt hbound
          omega
        · rw [List.prefix_append_right_inj, ih hps hlater hothers fun c hc => hlast c ?_]
          · refine forall₄_congr fun front q back _ => ?_
            simp only [hlength, List.length_append, codes, List.length_map, endsSetOff_cons,
              Nat.add_lt_add_iff_left]
          · apply List.mem_getLast?_append_of_mem_getLast?
            exact List.mem_getLast?_append_of_mem_getLast? hc
      · refine iff_of_false (fun hnew => hsame ?_) fun hkept => hsame (hkept.1 hplace)
        refine (gap_eq_of_begins (isSpaceOrTab_codes hp.gap) (isSpaceOrTab_codes (hp.newGap behind))
          (by simpa [codes] using hp.cells_ne_nil) (fun c hc => ?_) hwithin hne hnew).symm
        rw [codes, List.head?_map] at hc
        obtain ⟨d, hd, rfl⟩ := Option.map_eq_some_iff.mp hc
        exact hfirst hsame d hd

/-- The same from within a piece, behind which its last cells are left. -/
theorem prefix_append_spread_iff {outer : List Cell} (hsound : ∀ p ∈ ps, p.IsSound)
    (hsolid : ∀ front p back, ps = front ++ p :: back →
      codes (p.newGap (endsSetOff behind front)) ≠ codes p.gap →
        ∀ c ∈ p.cells.head?, isSpaceOrTab c.code = false)
    (ht : t <+: codes outer ++ (codes (join ps) ++ more))
    (hlast : ∀ c ∈ t.getLast?, isSpaceOrTab c = false) :
    t <+: codes outer ++ (codes (join (spread behind ps)) ++ more) ↔
      ∀ front p back, ps = front ++ p :: back →
        (outer ++ (join front ++ p.gap)).length < t.length →
          codes (p.newGap (endsSetOff behind front)) = codes p.gap := by
  rcases Text.prefix_append_cases ht with hwithin | ⟨rest, rfl, hrest⟩
  · refine iff_of_true (hwithin.trans (List.prefix_append _ _)) fun front p back _ hlt => ?_
    have hbound := hwithin.length_le
    rw [Cell.length_codes] at hbound
    rw [List.length_append] at hlt
    omega
  · rw [List.prefix_append_right_inj, prefix_spread_iff hsound hsolid hrest fun c hc => hlast c ?_]
    · refine forall₄_congr fun front p back _ => ?_
      rw [@List.length_append _ outer, @List.length_append _ (codes outer),
        Cell.length_codes, Nat.add_lt_add_iff_left]
    · exact List.mem_getLast?_append_of_mem_getLast? hc

theorem solid_spread (hsound : ∀ p ∈ ps, p.IsSound) :
    Text.solid (codes (join (spread behind ps))) = Text.solid (codes (join ps)) := by
  induction ps generalizing behind with
  | nil => rfl
  | cons p ps ih =>
      obtain ⟨hp, hps⟩ := List.forall_mem_cons.mp hsound
      simp only [spread_cons, join_cons, codes_append, Text.solid_append, ih hps,
        Cell.solid_codes_of_isGap fun c hc => (hp.gap c hc).1,
        Cell.solid_codes_of_isGap fun c hc => (hp.newGap behind c hc).1]

end Prefixes

section Places

variable {front back : List Piece} {p : Piece} {i : Nat}

/-- A gap is changed only before a character that is no blank. -/
theorem solid_head_of_changed (h : r.IsRegular)
    (hsplit : (r.reading line).pieces = front ++ p :: back)
    (hchanged : codes (p.newGap (endsSetOff false front)) ≠ codes p.gap) :
    ∀ c ∈ p.cells.head?, isSpaceOrTab c.code = false := by
  intro c hc
  obtain ⟨others, hcons⟩ := List.head?_eq_some_iff.mp hc
  have hsound := isSound_of_split h hsplit
  cases hends : endsSetOff false front with
  | true => exact (kept_of_endsSetOff h hsplit hends).2.2 c hc
  | false =>
      rcases hsound.shape with ⟨d, hd, -, hkept⟩ | ⟨-, hchars⟩
      · obtain ⟨rfl, -⟩ := List.cons.inj (hd.symm.trans hcons)
        have hsome : p.keyword.isSome = true := by
          by_contra hnone
          rw [hends, Piece.newGap_of_kept hkept (by simpa using hnone)] at hchanged
          exact hchanged rfl
        obtain ⟨e, he, hplain, hparen⟩ := hsound.keyword hsome
        obtain ⟨rfl, -⟩ := List.cons.inj (he.symm.trans hcons)
        have hmasked : e.masked = e.code := by
          refine (isSpaceable_codeCells h.toIsPlain line).masked_eq e ?_ hplain
          rw [codeCells_eq_of_split h hsplit, hcons]
          simp
        rw [← hmasked, hparen]
        rfl
      · exact isSpaceOrTab_of_not_isBlank
          (hchars c (by rw [hcons]; exact List.mem_cons_self)).1.notBlank

/-- Behind the start of a piece, gaps are changed before the pieces that follow it. -/
theorem changesGapAt_iff (hsplit : (r.reading line).pieces = front ++ p :: back)
    (hi : (join front ++ p.gap).length < i) :
    (r.reading line).ChangesGapAt i ↔ ∃ mid q rest, back = mid ++ q :: rest ∧
      (join front ++ p.gap ++ p.cells ++ (join mid ++ q.gap)).length = i ∧
        codes (q.newGap (endsSetOff p.isSetOff mid)) ≠ codes q.gap := by
  constructor
  · rintro ⟨front', q, rest, hpieces, hplace, hchanged⟩
    rw [hsplit] at hpieces
    rcases List.append_eq_append_iff.mp hpieces with ⟨more, rfl, hmore⟩ | ⟨more, rfl, hmore⟩
    · cases more with
      | nil =>
          obtain ⟨rfl, -⟩ := List.cons.inj hmore
          rw [List.append_nil] at hplace
          omega
      | cons u mid =>
          obtain ⟨rfl, rfl⟩ := List.cons.inj hmore
          rw [endsSetOff_append, endsSetOff_cons] at hchanged
          refine ⟨mid, q, rest, rfl, ?_, hchanged⟩
          rw [← hplace]
          simp
    · cases more with
      | nil =>
          obtain ⟨rfl, -⟩ := List.cons.inj hmore
          rw [List.append_nil] at hi
          omega
      | cons u mid =>
          obtain ⟨rfl, -⟩ := List.cons.inj hmore
          simp only [join_append, join_cons, List.length_append] at hi hplace
          omega
  · rintro ⟨mid, q, rest, rfl, hplace, hchanged⟩
    refine ⟨front ++ p :: mid, q, rest, by rw [hsplit]; simp, ?_, ?_⟩
    · rw [← hplace]
      simp
    · rwa [endsSetOff_append, endsSetOff_cons]

/-- No gap is changed between a place within a piece and a later one if none is changed before the
pieces that start on the way. -/
theorem forall_not_changesGapAt_iff (hsplit : (r.reading line).pieces = front ++ p :: back)
    {start stop : Nat} (hstart : (join front ++ p.gap).length ≤ start)
    (hwithin : start < (join front ++ p.gap ++ p.cells).length) :
    (∀ i, start < i → i < stop → ¬(r.reading line).ChangesGapAt i) ↔
      ∀ mid q rest, back = mid ++ q :: rest →
        (join front ++ p.gap ++ p.cells ++ (join mid ++ q.gap)).length < stop →
          codes (q.newGap (endsSetOff p.isSetOff mid)) = codes q.gap := by
  constructor
  · intro hkept mid q rest hback hlt
    have hlater : start < (join front ++ p.gap ++ p.cells ++ (join mid ++ q.gap)).length := by
      rw [@List.length_append _ _ (join mid ++ q.gap)]
      exact Nat.lt_add_right _ hwithin
    by_contra hchanged
    exact hkept _ hlater hlt ((changesGapAt_iff hsplit (Nat.lt_of_le_of_lt hstart hlater)).mpr
      ⟨mid, q, rest, hback, rfl, hchanged⟩)
  · intro hkept i hlt hstop hchanges
    obtain ⟨mid, q, rest, hback, rfl, hchanged⟩ :=
      (changesGapAt_iff hsplit (Nat.lt_of_le_of_lt hstart hlt)).mp hchanges
    exact hchanged (hkept mid q rest hback hstop)

end Places

section Copies

variable {before after : List Cell} {x : Cell} {s : Span}

/-- The line and the spaced line at a cell of a piece: behind it, they differ in how the later
pieces are spread. -/
theorem exists_lines_at (h : r.IsRegular) {front back : List Piece} {p : Piece}
    {inner outer : List Cell} (hsplit : (r.reading line).pieces = front ++ p :: back)
    (hp : p.cells = inner ++ x :: outer) :
    ∃ more, line = codes (join front ++ p.gap ++ inner) ++
        x.code :: (codes outer ++ (codes (join back) ++ more)) ∧
      (r.normalize line).line =
        codes (join (spread false front) ++ p.newGap (endsSetOff false front) ++ inner) ++
          x.code :: (codes outer ++ (codes (join (spread p.isSetOff back)) ++ more)) := by
  refine ⟨codes (r.reading line).tail ++ (r.style.splitComment line).2, ?_, ?_⟩
  · have hcode := congrArg codes (reads_reading h line).cells_eq
    rw [codeCells, Cell.codes_ofCode, Reading.cells, hsplit] at hcode
    refine (r.style.splitComment_append line).symm.trans ?_
    rw [← hcode]
    simp [hp]
  · rw [normalize_eq h, Reading.spaced, hsplit, spread_append, spread_cons]
    simp [hp]

/-- A part of a line that starts within its code is copied exactly if no gap in it is changed. -/
theorem isCopied_iff (h : r.IsRegular) (hcells : r.codeCells line = before ++ x :: after)
    (hx : isSpaceOrTab x.code = false) (hmasked : isSpaceOrTab x.masked = false)
    (hstart : s.start = before.length) (hlt : s.start < s.stop) (hle : s.stop ≤ line.length)
    (hlast : ∀ c ∈ (line)[s.stop - 1]?, isSpaceOrTab c = false) :
    s.IsCopied line (r.normalize line).line ↔
      ∀ i, s.start < i → i < s.stop → ¬(r.reading line).ChangesGapAt i := by
  have hsound := isSound_of_mem h line
  have hreads := (reads_reading h line).cells_eq
  obtain ⟨front, p, back, inner, outer, hsplit, hp, rfl, rfl⟩ := exists_piece_of_split hsound
    (isSpaceOrTab_masked (gap_tail h _)) hmasked (hreads.trans hcells)
  rw [hsplit] at hsound
  simp only [List.forall_mem_append, List.forall_mem_cons] at hsound
  obtain ⟨hfront, hpsound, hback⟩ := hsound
  obtain ⟨more, hline, hnew⟩ := exists_lines_at h hsplit hp
  have hsolid : Text.solid (codes (join (spread false front) ++
      p.newGap (endsSetOff false front) ++ inner)) =
        Text.solid (codes (join front ++ p.gap ++ inner)) := by
    simp only [codes_append, Text.solid_append, solid_spread hfront,
      Cell.solid_codes_of_isGap fun c hc => (hpsound.gap c hc).1,
      Cell.solid_codes_of_isGap fun c hc => (hpsound.newGap _ c hc).1]
  rw [Span.isCopied_iff_prefix hline hnew hx hsolid
    (changesBlanksOnly_of_isPlain h.toIsPlain line).solid_eq
    (hstart.trans (Cell.length_codes _).symm) hlt]
  have hlength : s.stop - s.start - 1 ≤ (codes outer ++ (codes (join back) ++ more)).length := by
    rw [hline, List.length_append, List.length_cons, Cell.length_codes] at hle
    omega
  rw [prefix_append_spread_iff hback ?_ (List.take_prefix _ _) ?_, List.length_take_of_le hlength,
    forall_not_changesGapAt_iff hsplit (by simp [hstart]) (by simp [hstart, hp])]
  · refine forall₄_congr fun mid q rest _ => ?_
    simp only [List.length_append, hp, List.length_cons] at hstart ⊢
    refine imp_congr_left ⟨fun hshort => ?_, fun hshort => ?_⟩
    all_goals omega
  · intro mid q rest hrest hchanged
    have hlater : (r.reading line).pieces = (front ++ p :: mid) ++ q :: rest := by
      rw [hsplit, hrest]
      simp
    refine solid_head_of_changed h hlater ?_
    rwa [endsSetOff_append, endsSetOff_cons]
  · intro c hc
    rw [List.getLast?_eq_getElem?, List.length_take_of_le hlength, List.getElem?_take] at hc
    split_ifs at hc with hpos
    · refine hlast c ?_
      have hplace : s.stop - 1 =
          (codes (join front ++ p.gap ++ inner)).length + (s.stop - s.start - 1 - 1 + 1) := by
        rw [Cell.length_codes, ← hstart]
        omega
      rwa [hline, hplace, List.getElem?_append_right (Nat.le_add_right _ _),
        Nat.add_sub_cancel_left, List.getElem?_cons_succ]
    · cases hc

/-- The same for a part that is given with the text before and behind it. -/
theorem isCopied_part_iff {before part after : Text} {first rest : List Cell} (h : r.IsRegular)
    (hcells : r.codeCells (before ++ part ++ after) = first ++ x :: rest)
    (hfirst : codes first = before) (hx : isSpaceOrTab x.code = false)
    (hmasked : isSpaceOrTab x.masked = false) (hne : part ≠ [])
    (hlast : ∀ c ∈ part.getLast?, isSpaceOrTab c = false) :
    Span.IsCopied (before ++ part ++ after) (r.normalize (before ++ part ++ after)).line
        ⟨before.length, (before ++ part).length⟩ ↔
      ∀ i, before.length < i → i < (before ++ part).length →
        ¬(r.reading (before ++ part ++ after)).ChangesGapAt i := by
  have hpos := List.length_pos_of_ne_nil hne
  have hlength : (before ++ part).length - 1 = before.length + (part.length - 1) := by
    rw [List.length_append, Nat.add_sub_assoc hpos]
  refine isCopied_iff h hcells hx hmasked (hfirst ▸ Cell.length_codes first) ?_ ?_ fun c hc => ?_
  · simpa using hpos
  · exact (List.prefix_append _ _).length_le
  · refine hlast c ?_
    rw [List.getLast?_eq_getElem?]
    rwa [hlength, List.append_assoc, List.getElem?_append_right (Nat.le_add_right _ _),
      Nat.add_sub_cancel_left, List.getElem?_append_left (Nat.sub_one_lt_of_lt hpos)] at hc

end Copies

end OperatorSpacing

end LineLint
