import LineLint.Proofs.DefaultLabels

/-!
# Matching braces

The scan of a scope counts braces line by line. A closing brace behind the one that opens the scope
takes the depth back to zero for the first time exactly if the text between the two is balanced. So
the scan ends on the line of the brace that matches the first one, on a line of code that comes
before any brace is opened, or with the last of the lines.
-/

namespace LineLint

namespace LineScan

inductive BalancedBraces : Text → Prop
  | nil : BalancedBraces []
  | plain {c : Char} {t : Text} (hopen : c ≠ '{') (hclose : c ≠ '}') (ht : BalancedBraces t) :
      BalancedBraces (c :: t)
  | pair {inner t : Text} (hinner : BalancedBraces inner) (ht : BalancedBraces t) :
      BalancedBraces ('{' :: (inner ++ '}' :: t))

section Balanced

variable {front inner rest after t q : Text}

theorem braceDepth_append (a b : Text) : braceDepth (a ++ b) = braceDepth a + braceDepth b := by
  simp only [braceDepth, List.count_append, Int.ofNat_eq_natCast, Int.natCast_add]
  omega

theorem BalancedBraces.braceDepth_eq (h : BalancedBraces t) : braceDepth t = 0 := by
  induction h with
  | nil => rfl
  | plain hopen hclose _ ih => rw [braceDepth_cons_of_ne hopen hclose, ih]
  | pair _ _ ihinner iht =>
      rw [braceDepth_open, braceDepth_append, braceDepth_close, ihinner, iht]
      rfl

theorem BalancedBraces.braceDepth_nonneg (h : BalancedBraces t) (hq : q <+: t) :
    0 ≤ braceDepth q := by
  induction h generalizing q with
  | nil =>
      rw [List.prefix_nil.mp hq]
      exact Int.le_refl 0
  | plain hopen hclose _ ih =>
      cases q with
      | nil => exact Int.le_refl 0
      | cons c q =>
          obtain ⟨rfl, hbehind⟩ := List.cons_prefix_cons.mp hq
          rw [braceDepth_cons_of_ne hopen hclose]
          exact ih hbehind
  | pair hinner _ ihinner iht =>
      cases q with
      | nil => exact Int.le_refl 0
      | cons c q =>
          obtain ⟨rfl, hbehind⟩ := List.cons_prefix_cons.mp hq
          rw [braceDepth_open]
          rcases Text.prefix_append_cases hbehind with hpart | ⟨v, rfl, hv⟩
          · have hopened := ihinner hpart
            omega
          · rw [braceDepth_append, hinner.braceDepth_eq]
            cases v with
            | nil => decide
            | cons d v =>
                obtain ⟨rfl, hlater⟩ := List.cons_prefix_cons.mp hv
                have hopened := iht hlater
                rw [braceDepth_close]
                omega

theorem BalancedBraces.exists_falls_behind (h : BalancedBraces inner)
    (hq : q <+: inner ++ '}' :: after) (hfalls : braceDepth q < -1) :
    ∃ v, v <+: after ∧ braceDepth v < 0 := by
  rcases Text.prefix_append_cases hq with hpart | ⟨v, rfl, hv⟩
  · have hopened := h.braceDepth_nonneg hpart
    omega
  · rw [braceDepth_append, h.braceDepth_eq] at hfalls
    cases v with
    | nil => exact absurd hfalls (by decide)
    | cons c v =>
        obtain ⟨rfl, hlater⟩ := List.cons_prefix_cons.mp hv
        rw [braceDepth_close] at hfalls
        exact ⟨v, hlater, by omega⟩

/-- Up to the first brace that closes more than was opened the text is balanced. -/
theorem exists_balanced_of_falls (hq : q <+: t) (hfalls : braceDepth q < 0) :
    ∃ inner after, t = inner ++ '}' :: after ∧ BalancedBraces inner := by
  induction hn : t.length using Nat.strongRecOn generalizing t q with
  | ind n ih =>
      cases q with
      | nil => exact absurd hfalls (Int.lt_irrefl 0)
      | cons c q =>
          obtain ⟨more, rfl⟩ := hq
          have hshort : (q ++ more).length < n := hn ▸ Nat.lt_succ_self (q ++ more).length
          have hbehind : q <+: q ++ more := List.prefix_append q more
          by_cases hclose : c = '}'
          · exact ⟨[], q ++ more, hclose ▸ rfl, .nil⟩
          by_cases hopen : c = '{'
          · subst hopen
            rw [braceDepth_open] at hfalls
            obtain ⟨inner, after, hsplit, hinner⟩ := ih _ hshort hbehind (by omega) rfl
            -- the pair takes the depth back to where it was, so the rest falls as well
            obtain ⟨v, hv, hlater⟩ := hinner.exists_falls_behind (hsplit ▸ hbehind) (by omega)
            have hafter : after.length < n := by
              rw [hsplit, List.length_append, List.length_cons] at hshort
              omega
            obtain ⟨inner', after', rfl, hinner'⟩ := ih _ hafter hv hlater rfl
            refine ⟨'{' :: (inner ++ '}' :: inner'), after', ?_, .pair hinner hinner'⟩
            rw [List.cons_append, hsplit]
            simp
          · rw [braceDepth_cons_of_ne hopen hclose] at hfalls
            obtain ⟨inner, after, hsplit, hinner⟩ := ih _ hshort hbehind hfalls rfl
            refine ⟨c :: inner, after, ?_, .plain hopen hclose hinner⟩
            rw [List.cons_append, hsplit, List.cons_append]

/-- A scope ends in a text if the brace that matches the first one stands in it. -/
theorem endsScope_iff (hfront : ∀ c ∈ front, c ≠ '{' ∧ c ≠ '}') :
    EndsScope (front ++ '{' :: rest) ↔
      ∃ inner after, rest = inner ++ '}' :: after ∧ BalancedBraces inner := by
  have hnone : braceDepth front = 0 := by
    rw [braceDepth, List.count_eq_zero.mpr fun h => (hfront _ h).1 rfl,
      List.count_eq_zero.mpr fun h => (hfront _ h).2 rfl]
    rfl
  have hopened (v : Text) : braceDepth (front ++ '{' :: v) = braceDepth v + 1 := by
    rw [braceDepth_append, hnone, braceDepth_open, Int.zero_add]
  constructor
  · rintro ⟨q, hq, -, hdepth⟩
    have hlast : '}' ∈ q ++ ['}'] := List.mem_append_right q (List.mem_singleton_self _)
    rcases Text.prefix_append_cases hq with hearly | ⟨v, hv, hwithin⟩
    · exact absurd rfl (hfront _ (hearly.subset hlast)).2
    cases v with
    | nil =>
        rw [hv, List.append_nil] at hlast
        exact absurd rfl (hfront _ hlast).2
    | cons c v =>
        obtain ⟨rfl, hbehind⟩ := List.cons_prefix_cons.mp hwithin
        have hsame := congrArg braceDepth hv
        rw [braceDepth_append, hdepth, hopened, show braceDepth ['}'] = -1 from rfl] at hsame
        exact exists_balanced_of_falls hbehind (by omega)
  · rintro ⟨inner, after, rfl, hinner⟩
    refine ⟨front ++ '{' :: inner, ⟨after, by simp⟩, by simp, ?_⟩
    rw [hopened, hinner.braceDepth_eq]
    rfl

end Balanced

section Lines

variable {style : LiteralStyle} {lines : List Text} {line front : Text} {i j k m n o : Nat}

theorem codeBefore_succ_of_getElem? (hline : lines[i]? = some line) :
    codeBefore style lines (i + 1) = codeBefore style lines i ++ style.codeMask line := by
  rw [codeBefore, List.take_add_one, hline]
  simp [codeBefore]

theorem prefix_codeBefore (hij : i ≤ j) :
    codeBefore style lines i <+: codeBefore style lines j := by
  obtain ⟨more, hmore⟩ := List.take_prefix_take_left (l := lines) hij
  exact ⟨(more.map style.codeMask).flatten, by
    rw [codeBefore, codeBefore, ← hmore, List.map_append, List.flatten_append]⟩

theorem exists_line_of_mem_codeBefore {c : Char} (h : c ∈ codeBefore style lines n) :
    ∃ k line, k < n ∧ lines[k]? = some line ∧ c ∈ style.codeMask line := by
  obtain ⟨code, hcode, hc⟩ := List.mem_flatten.mp h
  obtain ⟨line, hline, rfl⟩ := List.mem_map.mp hcode
  obtain ⟨k, hk, rfl⟩ := List.mem_iff_getElem.mp hline
  rw [List.length_take] at hk
  rw [List.getElem_take] at hc
  exact ⟨k, lines[k], by omega, List.getElem?_eq_getElem (by omega), hc⟩

theorem EndsScope.mono {a b : Text} (h : EndsScope a) (hab : a <+: b) : EndsScope b := by
  obtain ⟨rest, rfl⟩ := hab
  exact h.append rest

theorem isOpen_afterBraces (s : BraceState) (t : Text) (h : (afterBraces s t).isClosed = false) :
    (afterBraces s t).isOpen = (s.isOpen || t.contains '{') := by
  induction s, t using braces_induction with
  | nil s => simp [afterBraces]
  | opens s t ih =>
      rw [afterBraces_open] at h ⊢
      simp [ih h]
  | ends s t hends => simp [afterBraces_close_of_ends hends] at h
  | closes s t hends ih =>
      rw [afterBraces_close_of_not_ends hends] at h ⊢
      simp [ih h]
  | passes s c t hopen hclose ih =>
      rw [afterBraces_cons_of_ne hopen hclose] at h ⊢
      simp [ih h, hopen.symm]

/-- A line behind the first one that shows code while no brace has been opened. -/
def Misses (style : LiteralStyle) (lines : List Text) (i : Nat) : Prop :=
  0 < i ∧ '{' ∉ codeBefore style lines (i + 1) ∧
    ∃ line, lines[i]? = some line ∧ (style.codeMask line).allBlank = false

def depthsBefore (style : LiteralStyle) (lines : List Text) (n : Nat) : List (Nat × Int) :=
  (List.range n).map fun i => (i, braceDepth (codeBefore style lines i))

theorem depthsBefore_succ (style : LiteralStyle) (lines : List Text) (n : Nat) :
    depthsBefore style lines (n + 1) =
      depthsBefore style lines n ++ [(n, braceDepth (codeBefore style lines n))] := by
  simp [depthsBefore, List.range_succ]

def scopeBehind (style : LiteralStyle) (lines : List Text) (n : Nat) : BraceScope :=
  scopeFrom style n (afterBraces {} (codeBefore style lines n)) (lines.drop n)

open Classical in
theorem scopeBehind_eq (hline : lines[n]? = some line)
    (hinside : ¬EndsScope (codeBefore style lines n)) :
    scopeBehind style lines n =
      if EndsScope (codeBefore style lines (n + 1)) then
        ⟨[(n, braceDepth (codeBefore style lines n))], some n⟩
      else if Misses style lines n then ⟨[(n, braceDepth (codeBefore style lines n))], none⟩
      else ⟨(n, braceDepth (codeBefore style lines n)) :: (scopeBehind style lines (n + 1)).visited,
        (scopeBehind style lines (n + 1)).close⟩ := by
  have hbefore : (afterBraces {} (codeBefore style lines n)).isClosed = false := by
    rwa [← isClosed_afterBraces_start, Bool.not_eq_true] at hinside
  have hdepth : (afterBraces {} (codeBefore style lines n)).depth =
      braceDepth (codeBefore style lines n) :=
    (depth_afterBraces {} _ hbefore).trans (Int.zero_add _)
  have hnext : afterBraces (afterBraces {} (codeBefore style lines n)) (style.codeMask line) =
      afterBraces {} (codeBefore style lines (n + 1)) := by
    rw [codeBefore_succ_of_getElem? hline, afterBraces_append {} _ _ hbefore]
  have hdrop : lines.drop n = line :: lines.drop (n + 1) := by
    obtain ⟨hn, rfl⟩ := List.getElem?_eq_some_iff.mp hline
    exact List.drop_eq_getElem_cons hn
  rw [scopeBehind, hdrop, scopeFrom]
  dsimp only
  rw [hnext, hdepth]
  by_cases hends : EndsScope (codeBefore style lines (n + 1))
  · rw [if_pos hends, if_pos (isClosed_afterBraces_start.mpr hends)]
  · have hclosed : (afterBraces {} (codeBefore style lines (n + 1))).isClosed = false := by
      rwa [← isClosed_afterBraces_start, Bool.not_eq_true] at hends
    have hmisses : (!(afterBraces {} (codeBefore style lines (n + 1))).isOpen && 0 < n &&
        !(style.codeMask line).allBlank) = true ↔ Misses style lines n := by
      rw [isOpen_afterBraces {} _ hclosed, Misses, hline]
      simp [and_assoc, and_left_comm]
    rw [if_neg hends, if_neg (mt isClosed_afterBraces_start.mp hends)]
    exact if_congr hmisses rfl rfl

/-- The scan goes through lines on which it does not end. -/
theorem braceScope_eq (hn : n ≤ lines.length)
    (hgoes : ∀ i < n, ¬EndsScope (codeBefore style lines (i + 1)) ∧ ¬Misses style lines i) :
    braceScope style lines =
      ⟨depthsBefore style lines n ++ (scopeBehind style lines n).visited,
        (scopeBehind style lines n).close⟩ := by
  induction n with
  | zero => rfl
  | succ n ih =>
      obtain ⟨hends, hmisses⟩ := hgoes n (Nat.lt_succ_self n)
      have hinside : ¬EndsScope (codeBefore style lines n) := fun h =>
        hends (h.mono (prefix_codeBefore (Nat.le_succ n)))
      rw [ih (Nat.le_of_succ_le hn) fun i hi => hgoes i (Nat.lt_succ_of_lt hi),
        scopeBehind_eq (List.getElem?_eq_getElem hn) hinside, if_neg hends, if_neg hmisses,
        depthsBefore_succ, List.append_assoc]
      rfl

theorem not_endsScope_codeBefore (h : ∀ i < n, ¬EndsScope (codeBefore style lines (i + 1))) :
    ¬EndsScope (codeBefore style lines n) := by
  cases n with
  | zero =>
      rintro ⟨q, hq, -, -⟩
      simp [codeBefore] at hq
  | succ n => exact h n (Nat.lt_succ_self n)

theorem braceScope_of_goes (hline : lines[n]? = some line)
    (hgoes : ∀ i < n, ¬EndsScope (codeBefore style lines (i + 1)) ∧ ¬Misses style lines i) :
    (EndsScope (codeBefore style lines (n + 1)) →
        braceScope style lines = ⟨depthsBefore style lines (n + 1), some n⟩) ∧
      (¬EndsScope (codeBefore style lines (n + 1)) → Misses style lines n →
        braceScope style lines = ⟨depthsBefore style lines (n + 1), none⟩) := by
  have hinside : ¬EndsScope (codeBefore style lines n) :=
    not_endsScope_codeBefore fun i hi => (hgoes i hi).1
  rw [braceScope_eq (Nat.le_of_lt (List.getElem?_eq_some_iff.mp hline).1) hgoes,
    scopeBehind_eq hline hinside, depthsBefore_succ]
  exact ⟨fun hends => by rw [if_pos hends], fun hends hmisses => by
    rw [if_neg hends, if_pos hmisses]⟩

theorem braceScope_of_goes_length (hgoes : ∀ i < lines.length,
      ¬EndsScope (codeBefore style lines (i + 1)) ∧ ¬Misses style lines i) :
    braceScope style lines = ⟨depthsBefore style lines lines.length, none⟩ := by
  rw [braceScope_eq (Nat.le_refl _) hgoes, scopeBehind, List.drop_length, scopeFrom,
    List.append_nil]

/-- The first brace of some lines opens a scope: it is the one behind `front`, on the first of the
lines or with blank lines between. -/
structure OpensScope (style : LiteralStyle) (lines : List Text) (o : Nat) (front : Text) :
    Prop where
  written : ∃ line rest, lines[o]? = some line ∧ style.codeMask line = front ++ '{' :: rest
  first : ∀ c ∈ codeBefore style lines o ++ front, c ≠ '{' ∧ c ≠ '}'
  blank : ∀ i line, 0 < i → i < o → lines[i]? = some line → (style.codeMask line).allBlank = true

/-- The brace that matches the first one stands on a line: the text between the two is balanced. -/
def MatchesOn (style : LiteralStyle) (lines : List Text) (o : Nat) (front : Text) (k : Nat) :
    Prop :=
  ∃ line back rest inner, lines[k]? = some line ∧ style.codeMask line = back ++ '}' :: rest ∧
    BalancedBraces inner ∧
      codeBefore style lines k ++ back = codeBefore style lines o ++ front ++ '{' :: inner

/-- No scope is opened: the first line with code behind the first of the lines has no opening brace
either. -/
structure LacksScope (style : LiteralStyle) (lines : List Text) (m : Nat) : Prop where
  behind : 0 < m
  code : ∃ line, lines[m]? = some line ∧ (style.codeMask line).allBlank = false
  blank : ∀ i line, 0 < i → i < m → lines[i]? = some line → (style.codeMask line).allBlank = true
  closed : ∀ i line, i = 0 ∨ i = m → lines[i]? = some line → '{' ∉ style.codeMask line

theorem OpensScope.exists_codeBefore_eq (h : OpensScope style lines o front) (hok : o < k) :
    ∃ rest, codeBefore style lines k =
      codeBefore style lines o ++ front ++ '{' :: rest := by
  obtain ⟨line, rest, hline, hcode⟩ := h.written
  obtain ⟨more, hmore⟩ : codeBefore style lines (o + 1) <+: codeBefore style lines k :=
    prefix_codeBefore hok
  refine ⟨rest ++ more, ?_⟩
  rw [← hmore, codeBefore_succ_of_getElem? hline, hcode]
  simp

theorem OpensScope.not_misses (h : OpensScope style lines o front) (i : Nat) :
    ¬Misses style lines i := by
  rintro ⟨hpos, hnone, line, hline, hcode⟩
  rcases Nat.lt_or_ge i o with hio | hoi
  · rw [h.blank i line hpos hio hline] at hcode
    cases hcode
  · obtain ⟨rest, hrest⟩ := h.exists_codeBefore_eq (Nat.lt_succ_of_le hoi)
    exact hnone (by rw [hrest]; simp)

/-- The code up to the line of the matching brace ends the scope, and what comes before does not:
a balanced text closes no brace that it did not open. -/
theorem OpensScope.endsScope_of_matchesOn (h : OpensScope style lines o front)
    (hmatches : MatchesOn style lines o front k) :
    EndsScope (codeBefore style lines (k + 1)) ∧ ¬EndsScope (codeBefore style lines k) := by
  obtain ⟨line, back, rest, inner, hline, hcode, hinner, hsame⟩ := hmatches
  have hnext : codeBefore style lines (k + 1) =
      codeBefore style lines o ++ front ++ '{' :: (inner ++ '}' :: rest) := by
    rw [codeBefore_succ_of_getElem? hline, hcode, ← List.append_assoc, hsame]
    simp
  refine ⟨?_, fun hends => ?_⟩
  · rw [hnext]
    exact (endsScope_iff h.first).mpr ⟨inner, rest, rfl, hinner⟩
  · have hwhole := hends.append back
    rw [hsame, endsScope_iff h.first] at hwhole
    obtain ⟨early, after, rfl, hearly⟩ := hwhole
    have hopened := hinner.braceDepth_nonneg (q := early ++ ['}']) ⟨after, by simp⟩
    rw [braceDepth_append, hearly.braceDepth_eq] at hopened
    exact absurd hopened (by decide)

theorem OpensScope.lt_of_endsScope (h : OpensScope style lines o front)
    (hends : EndsScope (codeBefore style lines k)) : o < k := by
  by_contra hlate
  obtain ⟨q, hq, hopen, -⟩ := hends.mono (prefix_codeBefore (Nat.le_of_not_lt hlate))
  have hmem := hq.subset (List.mem_append_left ['}'] hopen)
  exact (h.first _ (List.mem_append_left front hmem)).1 rfl

/-- Where the code up to a line ends the scope for the first time the matching brace stands. -/
theorem OpensScope.matchesOn_of_endsScope (h : OpensScope style lines o front)
    (hline : lines[k]? = some line) (hends : EndsScope (codeBefore style lines (k + 1)))
    (hinside : ¬EndsScope (codeBefore style lines k)) : MatchesOn style lines o front k := by
  obtain ⟨rest, hrest⟩ := h.exists_codeBefore_eq (h.lt_of_endsScope hends)
  rw [hrest, endsScope_iff h.first] at hends
  obtain ⟨inner, after, rfl, hinner⟩ := hends
  rw [codeBefore_succ_of_getElem? hline, ← List.cons_append, ← List.append_assoc] at hrest
  rcases List.append_eq_append_iff.mp hrest with ⟨back, hback, hcode⟩ | ⟨more, hmore, hafter⟩
  · exact ⟨line, back, after, inner, hline, hcode, hinner, hback.symm⟩
  · cases more with
    | nil =>
        rw [List.append_nil] at hmore
        exact ⟨line, [], after, inner, hline, hafter.symm, hinner, by rw [List.append_nil, hmore]⟩
    | cons c more =>
        obtain ⟨rfl, -⟩ := List.cons.inj hafter
        refine absurd ?_ hinside
        rw [hmore, List.append_assoc, List.cons_append]
        exact (endsScope_iff h.first).mpr ⟨inner, more, rfl, hinner⟩

/-- The scope ends on the line of the brace that matches its first one. -/
theorem OpensScope.matchesOn_iff (h : OpensScope style lines o front) :
    MatchesOn style lines o front k ↔ k < lines.length ∧
      EndsScope (codeBefore style lines (k + 1)) ∧ ¬EndsScope (codeBefore style lines k) := by
  constructor
  · intro hmatches
    obtain ⟨line, -, -, -, hline, -⟩ := id hmatches
    exact ⟨(List.getElem?_eq_some_iff.mp hline).1, h.endsScope_of_matchesOn hmatches⟩
  · rintro ⟨hk, hends, hinside⟩
    exact h.matchesOn_of_endsScope (List.getElem?_eq_getElem hk) hends hinside

/-- The lines of a scope are those up to the brace that matches the first one, or all of them. -/
theorem OpensScope.braceScope_spec (h : OpensScope style lines o front) :
    (∀ k, (braceScope style lines).close = some k ↔ MatchesOn style lines o front k) ∧
      (braceScope style lines).visited = depthsBefore style lines
        ((braceScope style lines).close.elim lines.length (· + 1)) := by
  by_cases hends : ∃ k, k < lines.length ∧ EndsScope (codeBefore style lines (k + 1))
  · classical
    obtain ⟨hk, hfirst⟩ := Nat.find_spec hends
    have hgoes : ∀ i < Nat.find hends,
        ¬EndsScope (codeBefore style lines (i + 1)) ∧ ¬Misses style lines i :=
      fun i hi => ⟨fun hearly => Nat.find_min hends hi ⟨hi.trans hk, hearly⟩, h.not_misses i⟩
    rw [(braceScope_of_goes (List.getElem?_eq_getElem hk) hgoes).1 hfirst]
    refine ⟨fun k => ?_, rfl⟩
    rw [Option.some.injEq, h.matchesOn_iff]
    constructor
    · rintro rfl
      exact ⟨hk, hfirst, not_endsScope_codeBefore fun i hi => (hgoes i hi).1⟩
    · rintro ⟨hlt, hlast, hinside⟩
      refine Nat.le_antisymm (Nat.find_min' hends ⟨hlt, hlast⟩) ?_
      by_contra hlate
      exact hinside (hfirst.mono (prefix_codeBefore (Nat.lt_of_not_le hlate)))
  · have hgoes : ∀ i < lines.length,
        ¬EndsScope (codeBefore style lines (i + 1)) ∧ ¬Misses style lines i :=
      fun i hi => ⟨fun hearly => hends ⟨i, hi, hearly⟩, h.not_misses i⟩
    rw [braceScope_of_goes_length hgoes]
    refine ⟨fun k => iff_of_false (Option.some_ne_none k).symm fun hmatches => ?_, rfl⟩
    obtain ⟨hk, hlast, -⟩ := h.matchesOn_iff.mp hmatches
    exact hends ⟨k, hk, hlast⟩

theorem LacksScope.braceScope_eq (h : LacksScope style lines m) :
    braceScope style lines = ⟨depthsBefore style lines (m + 1), none⟩ := by
  obtain ⟨line, hline, hcode⟩ := h.code
  have hclosed (i : Nat) (hi : i ≤ m) (t : Text) (ht : lines[i]? = some t) :
      '{' ∉ style.codeMask t := by
    by_cases hmiddle : 0 < i ∧ i < m
    · exact not_mem_of_allBlank (h.blank i t hmiddle.1 hmiddle.2 ht) (by decide)
    · exact h.closed i t (by omega) ht
  have hnone (i : Nat) (hi : i ≤ m + 1) : '{' ∉ codeBefore style lines i := by
    intro hmem
    obtain ⟨k, t, hk, ht, hopen⟩ := exists_line_of_mem_codeBefore hmem
    exact hclosed k (by omega) t ht hopen
  have hends (i : Nat) (hi : i ≤ m + 1) : ¬EndsScope (codeBefore style lines i) := by
    rintro ⟨q, hq, hopen, -⟩
    exact hnone i hi (hq.subset (List.mem_append_left _ hopen))
  refine (braceScope_of_goes hline fun i hi => ⟨hends _ (by omega), ?_⟩).2 (hends _ (Nat.le_refl _))
    ⟨h.behind, hnone _ (Nat.le_refl _), line, hline, hcode⟩
  rintro ⟨hpos, -, t, ht, hshown⟩
  rw [h.blank i t hpos hi ht] at hshown
  cases hshown

/-- The scan of the lines in a window looks for the brace that matches the first one. If that one
opens a scope, the lines are visited up to the one with the matching brace, or all of them, each
with the braces left open before it. If a line of code comes before, the scan ends with it. -/
theorem scopeFromIndex_spec (style : LiteralStyle) (lines : List Text) (start window : Nat) :
    let met := (lines.drop start).take window
    ∃ scope, scopeFromIndex style lines start window = .ok scope ∧
      (∀ o front, OpensScope style met o front →
        (∀ k, scope.close = some k ↔ MatchesOn style met o front k) ∧
          scope.visited = depthsBefore style met (scope.close.elim met.length (· + 1))) ∧
      ∀ m, LacksScope style met m → scope = ⟨depthsBefore style met (m + 1), none⟩ := by
  intro met
  refine ⟨braceScope style met, ?_, fun o front h => h.braceScope_spec, fun m h => h.braceScope_eq⟩
  rw [scopeFromIndex]
  split_ifs with hwindow
  · have hnone : met = [] := by
      simp only [met, show window = 0 by omega, List.take_zero]
    rw [hnone]
    rfl
  · rw [countingUp, if_pos (Int.natCast_nonneg start)]
    rfl

def nestedScopes : List Text := ["f()", "\x7b\x7b\x7d", "\x7d"].map String.toList

theorem scopeFromIndex_spec_nestedScopes :
    OpensScope {} nestedScopes 1 [] ∧ MatchesOn {} nestedScopes 1 [] 2 ∧
      ∃ scope, scopeFromIndex {} nestedScopes 0 200 = .ok scope ∧ scope.close = some 2 ∧
        scope.visited = [(0, 0), (1, 0), (2, 1)] := by
  have hheader : codeBefore {} nestedScopes 1 = ['f', '(', ')'] := by cbv
  have hopens : OpensScope {} nestedScopes 1 [] :=
    ⟨⟨_, ['{', '}'], rfl, by cbv⟩, by simp [hheader], fun i _ hpos hi => by omega⟩
  have hmatches : MatchesOn {} nestedScopes 1 [] 2 :=
    ⟨_, [], [], ['{', '}'], rfl, by cbv, .pair .nil .nil, by cbv⟩
  obtain ⟨scope, hrun, hscope, -⟩ := scopeFromIndex_spec {} nestedScopes 0 200
  obtain ⟨hclose, hvisited⟩ := hscope 1 [] hopens
  have hlast : scope.close = some 2 := (hclose 2).mpr hmatches
  refine ⟨hopens, hmatches, scope, hrun, hlast, ?_⟩
  rw [hvisited, hlast]
  cbv

end Lines

end LineScan

end LineLint
