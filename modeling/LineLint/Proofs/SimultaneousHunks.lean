import LineLint.Proofs.AcceptedHunks

/-!
# Hunks carried out at once

The text that a composition spells out with a cursor, hunk after hunk, is the text in which every
position of the line stands with what is inserted there, what replaces the part that starts there,
and its own character unless that is replaced.
-/

namespace LineLint

/-- Entries that are all in order with each other keep their order in a merge sort. -/
theorem filter_mergeSort_of_pairwise {α : Type} {le : α → α → Bool} {p : α → Bool} {xs : List α}
    (trans : ∀ a b c, le a b = true → le b c = true → le a c = true)
    (total : ∀ a b, (le a b || le b a) = true)
    (h : (xs.filter p).Pairwise fun a b => le a b = true) :
    (xs.mergeSort le).filter p = xs.filter p := by
  have hsub : (xs.filter p).Sublist (xs.mergeSort le) :=
    List.sublist_mergeSort trans total h List.filter_sublist
  have hfiltered : (xs.filter p).Sublist ((xs.mergeSort le).filter p) := by
    simpa using hsub.filter p
  exact (hfiltered.eq_of_length ((List.mergeSort_perm xs le).filter p).length_eq.symm).symm

namespace Composition

theorem before_trans (h k l : Hunk) (hk : before h k = true) (kl : before k l = true) :
    before h l = true := by
  simp only [before, Bool.or_eq_true, Bool.and_eq_true, decide_eq_true_eq, beq_iff_eq,
    Bool.not_eq_true'] at hk kl ⊢
  rcases hk with hk | ⟨hk, hk'⟩ <;> rcases kl with kl | ⟨kl, kl'⟩
  · exact Or.inl (by omega)
  · exact Or.inl (by omega)
  · exact Or.inl (by omega)
  · refine Or.inr ⟨hk.trans kl, ?_⟩
    rcases hk' with hh | hk'
    · exact Or.inl hh
    · exact Or.inr (kl'.resolve_left (by simp [hk']))

theorem before_total (h k : Hunk) : (before h k || before k h) = true := by
  simp only [before, Bool.or_eq_true, Bool.and_eq_true, decide_eq_true_eq, beq_iff_eq,
    Bool.not_eq_true']
  rcases Nat.lt_trichotomy h.start k.start with hlt | heq | hgt
  · exact Or.inl (Or.inl hlt)
  · cases hh : h.isInsert with
    | true => exact Or.inl (Or.inr ⟨heq, Or.inl rfl⟩)
    | false => exact Or.inr (Or.inr ⟨heq.symm, Or.inr rfl⟩)
  · exact Or.inr (Or.inl hgt)

def inserts (position : Nat) (h : Hunk) : Bool := h.isInsert && h.start == position

def replaces (position : Nat) (h : Hunk) : Bool := !h.isInsert && h.start == position

def covers (position : Nat) (h : Hunk) : Bool := h.start ≤ position && position < h.stop

/-- What stands at a position of the base when all hunks are carried out together: the insertions
there, in their order, then the text of the replacement that starts there, then the character of the
base unless it is replaced. -/
def standing (base : Text) (hunks : List Hunk) (position : Nat) : Text :=
  (hunks.filter (inserts position)).flatMap (·.text) ++
    (hunks.filter (replaces position)).flatMap (·.text) ++
      if hunks.any (covers position) then [] else base[position]?.toList

def simultaneous (base : Text) (hunks : List Hunk) : Text :=
  (List.range (base.length + 1)).flatMap (standing base hunks)

section Standing

variable {base : Text} {h : Hunk} {hunks : List Hunk} {position : Nat}

theorem standing_of_forall_lt (hlt : ∀ k ∈ hunks, position < k.start) :
    standing base hunks position = base[position]?.toList := by
  have hinserts : hunks.filter (inserts position) = [] :=
    List.filter_eq_nil_iff.mpr fun k hk => by
      have := hlt k hk
      simp only [inserts, Bool.and_eq_true, beq_iff_eq]
      omega
  have hreplaces : hunks.filter (replaces position) = [] :=
    List.filter_eq_nil_iff.mpr fun k hk => by
      have := hlt k hk
      simp only [replaces, Bool.and_eq_true, beq_iff_eq]
      omega
  have hcovers : hunks.any (covers position) = false :=
    List.any_eq_false.mpr fun k hk => by
      have := hlt k hk
      simp only [covers, Bool.and_eq_true, decide_eq_true_eq]
      omega
  rw [standing, hinserts, hreplaces, hcovers]
  rfl

theorem standing_cons_of_lt (hstart : h.start < position) (hstop : h.stop ≤ position) :
    standing base (h :: hunks) position = standing base hunks position := by
  have hat : (h.start == position) = false := by
    rw [beq_eq_false_iff_ne]
    omega
  have hcovers : covers position h = false := by
    simp only [covers, Bool.and_eq_false_iff, decide_eq_false_iff_not]
    omega
  simp only [standing, List.filter_cons, inserts, replaces, hat, Bool.and_false, List.any_cons,
    hcovers, Bool.false_or, Bool.false_eq_true, if_false]

theorem standing_cons_insert (hinsert : h.isInsert = true) :
    standing base (h :: hunks) h.start = h.text ++ standing base hunks h.start := by
  have hempty : h.start = h.stop := by simpa [Hunk.isInsert] using hinsert
  have hcovers : covers h.start h = false := by
    simp only [covers, Bool.and_eq_false_iff, decide_eq_false_iff_not]
    omega
  simp only [standing, List.filter_cons, inserts, replaces, hinsert, beq_self_eq_true,
    Bool.and_self, Bool.not_true, Bool.false_and, if_true, List.any_cons, hcovers, Bool.false_or,
    Bool.false_eq_true, if_false, List.flatMap_cons, List.append_assoc]

theorem standing_cons_replace (hreplace : h.isInsert = false) (hle : h.start ≤ h.stop)
    (hbehind : ∀ k ∈ hunks, h.stop ≤ k.start) :
    standing base (h :: hunks) h.start = h.text := by
  have hlt : h.start < h.stop := by
    have : h.start ≠ h.stop := by simpa [Hunk.isInsert] using hreplace
    omega
  have hrest : ∀ k ∈ hunks, (k.start == h.start) = false := fun k hk => by
    have := hbehind k hk
    rw [beq_eq_false_iff_ne]
    omega
  have hinserts : hunks.filter (inserts h.start) = [] :=
    List.filter_eq_nil_iff.mpr fun k hk => by simp [inserts, hrest k hk]
  have hreplaces : hunks.filter (replaces h.start) = [] :=
    List.filter_eq_nil_iff.mpr fun k hk => by simp [replaces, hrest k hk]
  have hcovers : covers h.start h = true := by simp [covers, hlt]
  have hnot : inserts h.start h = false := by simp [inserts, hreplace]
  have hhere : replaces h.start h = true := by simp [replaces, hreplace]
  simp only [standing, List.filter_cons, hnot, hhere, hinserts, hreplaces, List.any_cons, hcovers,
    Bool.true_or, Bool.false_eq_true, if_true, if_false, List.flatMap_nil, List.flatMap_cons,
    List.nil_append, List.append_nil]

theorem standing_cons_of_covered (hstart : h.start < position) (hstop : position < h.stop)
    (hbehind : ∀ k ∈ hunks, h.stop ≤ k.start) :
    standing base (h :: hunks) position = [] := by
  have hat : ∀ k ∈ h :: hunks, (k.start == position) = false := by
    intro k hk
    rw [beq_eq_false_iff_ne]
    rcases List.mem_cons.mp hk with rfl | hk
    · omega
    · have := hbehind k hk
      omega
  have hinserts : (h :: hunks).filter (inserts position) = [] :=
    List.filter_eq_nil_iff.mpr fun k hk => by simp [inserts, hat k hk]
  have hreplaces : (h :: hunks).filter (replaces position) = [] :=
    List.filter_eq_nil_iff.mpr fun k hk => by simp [replaces, hat k hk]
  have hcovers : covers position h = true := by
    simp only [covers, Bool.and_eq_true, decide_eq_true_eq]
    omega
  rw [standing, hinserts, hreplaces, List.any_cons, hcovers]
  rfl

theorem standing_mergeSort (base : Text) (hunks : List Hunk) (position : Nat) :
    standing base (hunks.mergeSort before) position = standing base hunks position := by
  have hinserts : (hunks.filter (inserts position)).Pairwise fun h k => before h k = true := by
    refine List.pairwise_of_forall_mem_list fun h hh k hk => ?_
    obtain ⟨hinsert, hat⟩ : h.isInsert = true ∧ h.start = position := by
      simpa [inserts] using (List.mem_filter.mp hh).2
    obtain ⟨-, kat⟩ : k.isInsert = true ∧ k.start = position := by
      simpa [inserts] using (List.mem_filter.mp hk).2
    simp [before, hinsert, hat, kat]
  have hreplaces : (hunks.filter (replaces position)).Pairwise fun h k => before h k = true := by
    refine List.pairwise_of_forall_mem_list fun h hh k hk => ?_
    obtain ⟨-, hat⟩ : h.isInsert = false ∧ h.start = position := by
      simpa [replaces] using (List.mem_filter.mp hh).2
    obtain ⟨kreplace, kat⟩ : k.isInsert = false ∧ k.start = position := by
      simpa [replaces] using (List.mem_filter.mp hk).2
    simp [before, kreplace, hat, kat]
  rw [standing, filter_mergeSort_of_pairwise before_trans before_total hinserts,
    filter_mergeSort_of_pairwise before_trans before_total hreplaces,
    (List.mergeSort_perm hunks before).any_eq]
  rfl

end Standing

section Spelling

variable {base : Text} {hunks : List Hunk} {cursor : Nat}

theorem range'_split {first middle last : Nat} (hfirst : first ≤ middle) (hlast : middle ≤ last) :
    List.range' first (last - first) =
      List.range' first (middle - first) ++ List.range' middle (last - middle) := by
  have hjoin := @List.range'_append_1 first (middle - first) (last - middle)
  rw [show first + (middle - first) = middle by omega,
    show middle - first + (last - middle) = last - first by omega] at hjoin
  exact hjoin.symm

theorem flatMap_getElem?_range' (base : Text) (first n : Nat) :
    ((List.range' first n).flatMap fun position => base[position]?.toList) =
      (base.drop first).take n := by
  induction n generalizing first with
  | zero => simp
  | succ n ih =>
      rw [List.range'_succ, List.flatMap_cons, ih]
      by_cases hlt : first < base.length
      · rw [List.drop_eq_getElem_cons hlt, List.take_succ_cons, List.getElem?_eq_getElem hlt]
        rfl
      · rw [List.drop_eq_nil_of_le (by omega), List.drop_eq_nil_of_le (by omega),
          List.getElem?_eq_none (by omega)]
        simp

theorem flatMap_standing_of_forall_le {stop : Nat} (h : ∀ k ∈ hunks, stop ≤ k.start) :
    (List.range' cursor (stop - cursor)).flatMap (standing base hunks) =
      (base.drop cursor).take (stop - cursor) := by
  rw [← flatMap_getElem?_range']
  refine List.flatMap_congr fun position hposition => standing_of_forall_lt fun k hk => ?_
  have := List.mem_range'_1.mp hposition
  have := h k hk
  omega

/-- Hunks in order that lie apart: one that comes after another starts at it or behind it, and
behind its range if it is a replacement. -/
def InOrder (hunks : List Hunk) : Prop :=
  hunks.Pairwise fun h k => h.start ≤ k.start ∧ (h.isInsert = false → h.stop ≤ k.start)

/-- To spell out hunks in order is to carry them out together. -/
theorem spell_eq_flatMap_standing (horder : InOrder hunks)
    (hwithin : ∀ h ∈ hunks, h.start ≤ h.stop ∧ h.stop ≤ base.length)
    (hcursor : ∀ h ∈ hunks, cursor ≤ h.start) :
    spell base cursor hunks =
      (List.range' cursor (base.length + 1 - cursor)).flatMap (standing base hunks) := by
  induction hunks generalizing cursor with
  | nil =>
      rw [flatMap_standing_of_forall_le (by simp), List.take_of_length_le, spell]
      rw [List.length_drop]
      omega
  | cons h hunks ih =>
      obtain ⟨hbehind, horder⟩ := List.pairwise_cons.mp horder
      obtain ⟨⟨hle, hstop⟩, hwithin⟩ := List.forall_mem_cons.mp hwithin
      obtain ⟨hcursor, -⟩ := List.forall_mem_cons.mp hcursor
      have hstarts : ∀ k ∈ h :: hunks, h.start ≤ k.start :=
        List.forall_mem_cons.mpr ⟨Nat.le_refl _, fun k hk => (hbehind k hk).1⟩
      have hfrom (first : Nat) (hfirst : h.start < first) (hcovered : h.stop ≤ first) (n : Nat) :
          (List.range' first n).flatMap (standing base (h :: hunks)) =
            (List.range' first n).flatMap (standing base hunks) := by
        refine List.flatMap_congr fun position hposition => ?_
        have := List.mem_range'_1.mp hposition
        exact standing_cons_of_lt (by omega) (by omega)
      rw [spell_cons hcursor, Nat.max_eq_right hle,
        range'_split hcursor (show h.start ≤ base.length + 1 by omega), List.flatMap_append,
        flatMap_standing_of_forall_le hstarts, List.append_assoc]
      refine congrArg _ ?_
      cases hinsert : h.isInsert with
      | true =>
          have hempty : h.start = h.stop := by simpa [Hunk.isInsert] using hinsert
          rw [ih horder hwithin fun k hk => hempty ▸ (hbehind k hk).1, ← hempty,
            show base.length + 1 - h.start = base.length - h.start + 1 by omega, List.range'_succ,
            List.flatMap_cons, List.flatMap_cons, standing_cons_insert hinsert,
            hfrom _ (by omega) (by omega), List.append_assoc]
      | false =>
          have hlt : h.start < h.stop := by
            have : h.start ≠ h.stop := by simpa [Hunk.isInsert] using hinsert
            omega
          have hafter : ∀ k ∈ hunks, h.stop ≤ k.start := fun k hk => (hbehind k hk).2 hinsert
          have hinside :
              (List.range' (h.start + 1) (h.stop - (h.start + 1))).flatMap
                (standing base (h :: hunks)) = [] := by
            refine List.flatMap_eq_nil_iff.mpr fun position hposition => ?_
            have := List.mem_range'_1.mp hposition
            exact standing_cons_of_covered (by omega) (by omega) hafter
          rw [ih horder hwithin hafter,
            show base.length + 1 - h.start = base.length - h.start + 1 by omega, List.range'_succ,
            List.flatMap_cons, standing_cons_replace hinsert hle hafter,
            show base.length - h.start = base.length + 1 - (h.start + 1) by omega,
            range'_split (show h.start + 1 ≤ h.stop by omega)
              (show h.stop ≤ base.length + 1 by omega),
            List.flatMap_append, hinside, List.nil_append, hfrom _ hlt (Nat.le_refl _)]

theorem IsApart.inOrder_mergeSort (h : IsApart base hunks) : InOrder (hunks.mergeSort before) := by
  have hperm := List.mergeSort_perm hunks before
  have hsorted := List.pairwise_mergeSort before_trans before_total hunks
  refine (hsorted.and (hperm.nodup_iff.mpr h.nodup)).imp_of_mem fun {k l} hk hl hkl => ?_
  obtain ⟨hbefore, hne⟩ := hkl
  have hk : k ∈ hunks := hperm.mem_iff.mp hk
  have hl : l ∈ hunks := hperm.mem_iff.mp hl
  have hkl := h.compatible k hk l hl
  have hlk := h.compatible l hl k hk
  obtain ⟨hkle, -⟩ := h.within k hk
  obtain ⟨hlle, -⟩ := h.within l hl
  simp only [before, Bool.or_eq_true, Bool.and_eq_true, decide_eq_true_eq, beq_iff_eq,
    Bool.not_eq_true'] at hbefore
  have hstart : k.start ≤ l.start := by omega
  refine ⟨hstart, fun hreplace => ?_⟩
  cases hinsert : l.isInsert with
  | true =>
      -- An insertion comes before a replacement at its position, so it is behind this one.
      have houtside := Hunk.not_inside_of_conflicts_eq_false hlk hinsert
      simp only [hreplace, hinsert, Bool.false_eq_true, Bool.true_eq_false, or_false,
        and_false] at hbefore
      omega
  | false =>
      have hlength : l.start ≠ l.stop := by simpa [Hunk.isInsert] using hinsert
      have hseparate := Hunk.separate_of_conflicts_eq_false hne hkl hreplace hinsert
      omega

theorem IsApart.filter (h : IsApart base hunks) (p : Hunk → Bool) :
    IsApart base (hunks.filter p) :=
  ⟨h.nodup.filter p, fun k hk => h.within k (List.mem_of_mem_filter hk), fun k hk l hl =>
    h.compatible k (List.mem_of_mem_filter hk) l (List.mem_of_mem_filter hl)⟩

theorem spell_mergeSort_eq_simultaneous (h : IsApart base hunks) :
    spell base 0 (hunks.mergeSort before) = simultaneous base hunks := by
  have hperm := List.mergeSort_perm hunks before
  rw [spell_eq_flatMap_standing h.inOrder_mergeSort
    (fun k hk => h.within k (hperm.mem_iff.mp hk)) (fun k _ => Nat.zero_le _), simultaneous,
    List.range_eq_range', Nat.sub_zero]
  exact List.flatMap_congr fun position _ => standing_mergeSort base hunks position

end Spelling

/-- Copies of one revision compose to what it says. In general the accepted hunks lie apart, the
merged text is the line without its indentation with all of them carried out together, except for
insertions of blanks that are absorbed, and a revision is rejected exactly if it clashes with an
earlier one that is not. -/
theorem composeRevisions_eq_simultaneous (line : Text) (revisions : List Text) :
    let base := line.dropIndentation
    let hunks (r : Text) := Hunk.between base r.dropIndentation
    let merged := (composeRevisions line revisions).1
    let rejected := (composeRevisions line revisions).2
    let accepted := ((entriesOff rejected 0 revisions).flatMap hunks).eraseDups
    let kept := accepted.filter fun h => !absorbed (accepted.filter fun k => !k.isInsert) h
    (∀ r n, composeRevisions line (List.replicate (n + 1) r) = (r.dropIndentation, [])) ∧
    (∀ h ∈ accepted, h.start ≤ h.stop ∧ h.stop ≤ base.length) ∧
    (∀ h ∈ accepted, ∀ k ∈ accepted, h.isInsert = true →
      ¬(k.start < h.start ∧ h.start < k.stop)) ∧
    (∀ h ∈ accepted, ∀ k ∈ accepted, h ≠ k → h.isInsert = false → k.isInsert = false →
      h.stop ≤ k.start ∨ k.stop ≤ h.start) ∧
    (∀ h ∈ accepted, h ∉ kept → h.isInsert = true ∧ h.text.allBlank = true) ∧
    kept.Nodup ∧
    merged = simultaneous base kept ∧
    rejected.Sublist (List.range revisions.length) ∧
    ∀ (i : Nat) (r : Text), revisions[i]? = some r →
      (i ∈ rejected ↔ ∃ h ∈ hunks r, ∃ (j : Nat) (q : Text), j < i ∧ revisions[j]? = some q ∧
        j ∉ rejected ∧ ∃ k ∈ hunks q, h.conflicts k = true) := by
  intro base hunks merged rejected accepted kept
  have haccepted : (ofRevisions base revisions).accepted = accepted :=
    accepted_ofRevisions base revisions
  have hapart : IsApart base accepted := haccepted ▸ isApart_accepted_ofRevisions base revisions
  have hkept : IsApart base kept := hapart.filter _
  refine ⟨fun r n => composeRevisions_replicate line r n, hapart.within,
    fun h hh k hk => Hunk.not_inside_of_conflicts_eq_false (hapart.compatible h hh k hk),
    fun h hh k hk hne => Hunk.separate_of_conflicts_eq_false hne (hapart.compatible h hh k hk),
    fun h hh hnot => ?_, hkept.nodup, ?_, rejected_sublist_range base revisions,
    fun i r hr => mem_rejected_iff hr⟩
  · have habsorbed : absorbed (accepted.filter fun k => !k.isInsert) h = true := by
      by_contra hkeep
      exact hnot (List.mem_filter.mpr ⟨hh, by simpa using hkeep⟩)
    simp only [absorbed, Bool.and_eq_true] at habsorbed
    exact habsorbed.1
  · have hmerged : merged = spell base 0 (kept.mergeSort before) := by
      simp only [merged, composeRevisions, Composition.merged, kept, ← haccepted]
      rfl
    rw [hmerged]
    exact spell_mergeSort_eq_simultaneous hkept

end Composition

end LineLint
