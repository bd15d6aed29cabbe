import LineLint.Proofs.SettledOrder

/-!
# Statements on several lines

A statement that moves keeps the lines on which its parentheses stay open. Whether it keeps its
other lines, as those behind a backslash, depends on what else moves: lines stay together exactly if
all of them move or nothing changes its place.
-/

namespace LineLint

namespace LineScan

variable {style : LiteralStyle}

/-- In the code of a line, round brackets alone can leave a statement open. -/
structure OnlyParens (style : LiteralStyle) (line : Text) : Prop where
  no_opening : '[' ∉ style.codeMask line
  no_closing : ']' ∉ style.codeMask line
  no_backslash : (style.codeMask line).getLast? ≠ some '\\'

theorem OnlyParens.bracketBalance {line : Text} (h : OnlyParens style line) :
    bracketBalance (style.codeMask line) = Relocation.parenBalance style line := by
  rw [LineScan.bracketBalance, Relocation.parenBalance, List.count_eq_zero_of_not_mem h.no_opening,
    List.count_eq_zero_of_not_mem h.no_closing]
  simp

/-- Behind a line that does not go on with a statement the scan starts anew. -/
theorem drop_continuedFrom {depth : Int} {backslash : Bool} (hdepth : 0 ≤ depth)
    {lines : List Text} {i : Nat}
    (h : (continuedFrom style depth backslash lines)[i]? = some false) :
    (continuedFrom style depth backslash lines).drop i = continued style (lines.drop i) := by
  induction lines generalizing depth backslash i with
  | nil => simp [continuedFrom] at h
  | cons line rest ih =>
      cases i with
      | zero =>
          rw [continuedFrom, List.getElem?_cons_zero, Option.some.injEq] at h
          obtain ⟨hclosed, rfl⟩ : ¬0 < depth ∧ backslash = false := by simpa using h
          obtain rfl : depth = 0 := by omega
          rfl
      | succ i =>
          rw [continuedFrom, List.getElem?_cons_succ] at h
          rw [continuedFrom, List.drop_succ_cons, List.drop_succ_cons]
          exact ih (by omega) h

/-- Lines that are left open by round brackets alone are open from the first of them on. -/
theorem staysOpenFrom_of_continuedFrom {depth : Int} {backslash : Bool} (hdepth : 0 ≤ depth)
    {lines : List Text} {n : Nat}
    (hopen : ∀ m < n, (continuedFrom style depth backslash lines)[m + 1]? = some true)
    (hparens : ∀ line ∈ lines.take n, OnlyParens style line) :
    Relocation.StaysOpenFrom style depth (lines.take n) := by
  induction n generalizing depth backslash lines with
  | zero => exact Relocation.staysOpenFrom_nil
  | succ n ih =>
      cases lines with
      | nil => exact Relocation.staysOpenFrom_nil
      | cons line rest =>
          rw [List.take_succ_cons] at hparens ⊢
          obtain ⟨hline, hrest⟩ := List.forall_mem_cons.mp hparens
          have hbackslash : ((style.codeMask line).getLast? == some '\\') = false :=
            beq_eq_false_iff_ne.mpr hline.no_backslash
          rw [continuedFrom] at hopen
          simp only [List.getElem?_cons_succ, hbackslash, hline.bracketBalance] at hopen
          have hpos : 0 < depth + Relocation.parenBalance style line := by
            have hfirst := hopen 0 (by omega)
            cases rest with
            | nil => simp [continuedFrom] at hfirst
            | cons next others =>
                rw [continuedFrom, List.getElem?_cons_zero] at hfirst
                simpa using hfirst
          rw [max_eq_left (by omega)] at hopen
          rw [Relocation.staysOpenFrom_cons_iff]
          exact ⟨hpos, ih (by omega) (fun m hm => hopen (m + 1) (by omega)) hrest⟩

end LineScan

namespace Relocation

section Together

variable {pattern : Pattern} {style : LiteralStyle} {lines : List Text} {i k : Nat}

theorem range'_infix_range' {first n : Nat} (hfirst : first ≤ i) (hik : i ≤ k)
    (hk : k < first + n) : List.range' i (k + 1 - i) <:+: List.range' first n := by
  have hleft := @List.range'_append_1 first (i - first) (k + 1 - i)
  have hall := @List.range'_append_1 first (k + 1 - first) (n - (k + 1 - first))
  rw [Nat.add_sub_cancel' hfirst, show i - first + (k + 1 - i) = k + 1 - first by omega] at hleft
  rw [show k + 1 - first + (n - (k + 1 - first)) = n by omega, ← hleft] at hall
  exact ⟨_, _, hall⟩

/-- Two neighbours that do not stand in the same of two lists stand where the lists meet. -/
theorem exists_append_of_pair_infix {α : Type} {xs ys : List α} {a b : α}
    (h : [a, b] <:+: xs ++ ys) (ha : a ∉ ys) (hb : b ∉ xs) :
    ∃ before after, xs = before ++ [a] ∧ ys = b :: after := by
  obtain ⟨before, after, hsplit⟩ := h
  have hmeet : (before ++ [a]) ++ (b :: after) = xs ++ ys := by simpa using hsplit
  refine ⟨before, after, ?_⟩
  rcases List.append_eq_append_iff.mp hmeet with ⟨c, hxs, hafter⟩ | ⟨c, hbefore, hys⟩
  · cases c with
    | nil => exact ⟨by simpa using hxs, by simpa using hafter.symm⟩
    | cons x c =>
        obtain ⟨rfl, -⟩ := List.cons.inj hafter
        exact absurd (by rw [hxs]; simp) hb
  · rcases List.eq_nil_or_concat c with rfl | ⟨c, x, rfl⟩
    · exact ⟨by simpa using hbefore.symm, by simpa using hys⟩
    · rw [List.concat_eq_append, ← List.append_assoc] at hbefore
      obtain rfl : a = x := by simpa using (List.append_inj' hbefore rfl).2
      exact absurd (by rw [hys]; simp) ha

theorem pairwise_lt_append_succ {before after : List Nat} {u : Nat}
    (hbefore : (before ++ [u]).Pairwise (· < ·)) (hafter : ((u + 1) :: after).Pairwise (· < ·)) :
    ((before ++ [u]) ++ (u + 1) :: after).Pairwise (· < ·) := by
  refine List.pairwise_append.mpr ⟨hbefore, hafter, fun a ha b hb => ?_⟩
  have hle : a ≤ u := by
    rcases List.mem_append.mp ha with ha | ha
    · exact Nat.le_of_lt ((List.pairwise_append.mp hbefore).2.2 a ha u (by simp))
    · exact Nat.le_of_eq (List.mem_singleton.mp ha)
  have hge : u + 1 ≤ b := by
    rcases List.mem_cons.mp hb with rfl | hb
    · exact Nat.le_refl _
    · exact Nat.le_of_lt ((List.pairwise_cons.mp hafter).1 b hb)
  omega

theorem range'_infix_order (hbelow : preambleLength style lines ≤ i) (hik : i ≤ k)
    (hk : k < lines.length)
    (hmoved : ∀ m, i ≤ m → m ≤ k → isMoved pattern style lines m = true) :
    List.range' i (k + 1 - i) <:+: order pattern style lines := by
  have hwithin : List.range' i (k + 1 - i) <:+: below style lines :=
    range'_infix_range' hbelow hik (by omega)
  have hself : (List.range' i (k + 1 - i)).filter (isMoved pattern style lines) =
      List.range' i (k + 1 - i) := by
    refine List.filter_eq_self.mpr fun m hm => ?_
    have := List.mem_range'_1.mp hm
    exact hmoved m (by omega) (by omega)
  have hfilter := hwithin.filter (isMoved pattern style lines)
  rw [hself] at hfilter
  rw [order_eq_filter]
  exact (hfilter.trans (List.prefix_append _ _).isInfix).trans (List.suffix_append _ _).isInfix

theorem pairwise_lt_front : (List.range (preambleLength style lines) ++
    (below style lines).filter (isMoved pattern style lines)).Pairwise (· < ·) := by
  have hbelow : (below style lines).Pairwise (· < ·) := List.pairwise_lt_range'
  refine List.pairwise_append.mpr ⟨List.pairwise_lt_range, hbelow.sublist List.filter_sublist,
    fun a ha b hb => ?_⟩
  have halt := List.mem_range.mp ha
  have hble := (List.mem_range'_1.mp (List.mem_of_mem_filter hb)).1
  omega

theorem pairwise_lt_back :
    ((below style lines).filter fun i => !isMoved pattern style lines i).Pairwise (· < ·) := by
  have hbelow : (below style lines).Pairwise (· < ·) := List.pairwise_lt_range'
  exact hbelow.sublist List.filter_sublist

/-- If a line that moves comes right before the next one, which does not, then nothing changes its
place. -/
theorem order_eq_range_of_together {u : Nat} (hbelow : preambleLength style lines ≤ u)
    (hmoved : isMoved pattern style lines u = true)
    (hstays : isMoved pattern style lines (u + 1) = false)
    (h : [u, u + 1] <:+: order pattern style lines) :
    order pattern style lines = List.range lines.length := by
  have hnot : u + 1 ∉ List.range (preambleLength style lines) ++
      (below style lines).filter (isMoved pattern style lines) := by
    intro hm
    rcases List.mem_append.mp hm with hm | hm
    · have := List.mem_range.mp hm
      omega
    · rw [(List.mem_filter.mp hm).2] at hstays
      cases hstays
  have hnot' : u ∉ (below style lines).filter fun i => !isMoved pattern style lines i := by
    intro hm
    have := (List.mem_filter.mp hm).2
    rw [hmoved] at this
    cases this
  rw [order_eq_filter, ← List.append_assoc] at h
  obtain ⟨before, after, hleft, hright⟩ := exists_append_of_pair_infix h hnot' hnot
  have hordered : (order pattern style lines).Pairwise (· < ·) := by
    have hfront := @pairwise_lt_front pattern style lines
    have hback := @pairwise_lt_back pattern style lines
    rw [hleft] at hfront
    rw [hright] at hback
    rw [order_eq_filter, ← List.append_assoc, hleft, hright]
    exact pairwise_lt_append_succ hfront hback
  exact List.Perm.eq_of_pairwise (fun a b _ _ hab hba => absurd hab (Nat.lt_asymm hba)) hordered
    List.pairwise_lt_range (order_perm pattern style lines)

/-- If lines behind one that moves are left behind, the first of them comes behind one that
moves. -/
theorem exists_last_moved (hmoved : isMoved pattern style lines i = true)
    (h : ∃ m, i < m ∧ m ≤ k ∧ isMoved pattern style lines m = false) :
    ∃ u, i ≤ u ∧ u < k ∧ isMoved pattern style lines u = true ∧
      isMoved pattern style lines (u + 1) = false := by
  obtain ⟨him, hmk, hstays⟩ := Nat.find_spec h
  obtain ⟨u, hu⟩ : ∃ u, Nat.find h = u + 1 := ⟨Nat.find h - 1, by omega⟩
  rw [hu] at him hmk hstays
  refine ⟨u, by omega, by omega, ?_, hstays⟩
  by_cases hui : u = i
  · rwa [hui]
  · by_contra hum
    exact Nat.find_min h (show u < Nat.find h by omega) ⟨by omega, by omega, by simpa using hum⟩

/-- From a line on that moves, lines stay together exactly if all of them move, or nothing changes
its place. -/
theorem range'_infix_order_iff (hmoved : isMoved pattern style lines i = true) (hik : i ≤ k)
    (hk : k < lines.length) :
    List.range' i (k + 1 - i) <:+: order pattern style lines ↔
      order pattern style lines = List.range lines.length ∨
        ∀ m, i < m → m ≤ k → isMoved pattern style lines m = true := by
  obtain ⟨-, first, hpreamble, hfirst, -⟩ := (isMoved_iff _ _ _ _).mp hmoved
  constructor
  · intro hwithin
    by_contra hnot
    obtain ⟨hchanged, hleft⟩ := not_or.mp hnot
    obtain ⟨u, hiu, huk, humoved, hstays⟩ : ∃ u, i ≤ u ∧ u < k ∧
        isMoved pattern style lines u = true ∧ isMoved pattern style lines (u + 1) = false := by
      apply exists_last_moved hmoved
      by_contra hnone
      apply hleft
      intro m him hmk
      by_contra hm
      exact hnone ⟨m, him, hmk, by simpa using hm⟩
    have hpair : [u, u + 1] <:+: List.range' i (k + 1 - i) := by
      have hrange : List.range' u (u + 1 + 1 - u) = [u, u + 1] := by
        rw [show u + 1 + 1 - u = 2 by omega]
        rfl
      rw [← hrange]
      exact range'_infix_range' hiu (by omega) (by omega)
    exact hchanged (order_eq_range_of_together (by omega) humoved hstays (hpair.trans hwithin))
  · rintro (hsame | hall)
    · rw [hsame, List.range_eq_range']
      exact range'_infix_range' (by omega) hik (by omega)
    · refine range'_infix_order (by omega) hik hk fun m him hmk => ?_
      rcases Nat.eq_or_lt_of_le him with rfl | him
      · exact hmoved
      · exact hall m him hmk

end Together

section Imports

open ImportLayout (importLine)

/-- An import below the preamble stays together with the lines behind it exactly if nothing changes
its place or each of these lines is reached by a statement that starts on it or above it. They are
reached if the statement is no continuation itself and the lines go on with it by round brackets
alone. -/
theorem range'_infix_order_importLine_iff {lines : List Text} {line : Text} {i k : Nat}
    (hbelow : leadingPreamble ['#'] lines ≤ i) (hline : lines[i]? = some line)
    (himport : importLine.matchesStart line = true) (hik : i ≤ k) (hk : k < lines.length) :
    let style := Python.profile.style
    let order := order importLine style lines
    let flags := LineScan.continued style lines
    (List.range' i (k + 1 - i) <:+: order ↔
      order = List.range lines.length ∨ ∀ m, i < m → m ≤ k →
        ∃ first, leadingPreamble ['#'] lines ≤ first ∧ first ≤ m ∧
          ReachesFrom importLine style lines first m) ∧
    (flags[i]? = some false → (∀ m, i < m → m ≤ k → flags[m]? = some true) →
      (∀ l ∈ (lines.drop i).take (k - i), LineScan.OnlyParens style l) →
      List.range' i (k + 1 - i) <:+: order) := by
  intro style order flags
  have hstarts : startsStatement importLine line = true := by
    rw [startsStatement_importLine, himport]
  have hmoved : isMoved importLine style lines i = true :=
    isMoved_of_startsStatement hbelow hline hstarts
  have htogether : List.range' i (k + 1 - i) <:+: order ↔
      order = List.range lines.length ∨ ∀ m, i < m → m ≤ k →
        ∃ first, leadingPreamble ['#'] lines ≤ first ∧ first ≤ m ∧
          ReachesFrom importLine style lines first m := by
    rw [range'_infix_order_iff hmoved hik hk]
    refine or_congr_right (forall_congr' fun m => forall_congr' fun _ =>
      forall_congr' fun hmk => ?_)
    exact (isMoved_iff importLine style lines m).trans (and_iff_right (by omega))
  refine ⟨htogether, fun hfirst hflags hparens => ?_⟩
  rw [htogether]
  refine Or.inr fun m him hmk => ⟨i, hbelow, by omega, ?_⟩
  have hscan : flags.drop i = LineScan.continued style (lines.drop i) :=
    LineScan.drop_continuedFrom (le_refl 0) hfirst
  have hopen : ∀ n < m - i,
      (LineScan.continued style (lines.drop i))[n + 1]? = some true := by
    intro n hn
    rw [← hscan, List.getElem?_drop]
    exact hflags (i + (n + 1)) (by omega) (by omega)
  have hparens' : ∀ l ∈ (lines.drop i).take (m - i), LineScan.OnlyParens style l :=
    fun l hl => hparens l (List.take_subset_take_left _ (by omega) hl)
  exact ⟨line, hline, hstarts, LineScan.staysOpenFrom_of_continuedFrom (le_refl 0) hopen hparens'⟩

def backslashImport : List Text := ["x = 1".toList, "import a, \\".toList, "    b".toList]

theorem range'_infix_order_importLine_iff_backslashImport :
    LineScan.continued Python.profile.style backslashImport = [false, false, true] ∧
      order importLine Python.profile.style backslashImport = [1, 0, 2] ∧
      ¬[1, 2] <:+: order importLine Python.profile.style backslashImport := by
  have horder : order importLine Python.profile.style backslashImport = [1, 0, 2] := by
    decide +kernel
  obtain ⟨htogether, -⟩ := @range'_infix_order_importLine_iff backslashImport
    "import a, \\".toList 1 2 (by decide +kernel) rfl (by decide +kernel) (by decide)
    (by decide)
  refine ⟨by decide +kernel, horder, fun hwithin => ?_⟩
  rcases htogether.mp hwithin with hsame | hreached
  · rw [horder] at hsame
    revert hsame
    decide
  · have hmoved : isMoved importLine Python.profile.style backslashImport 2 = true :=
      (isMoved_iff _ _ _ _).mpr ⟨by decide, hreached 2 (by decide) (by decide)⟩
    revert hmoved
    decide +kernel

end Imports

end Relocation

end LineLint
