import LineLint.Proofs.SimultaneousHunks

/-!
# Revisions in another order

Revisions that are all accepted have hunks that do not clash with each other, whichever comes first.
If moreover no two different texts are inserted at one position, the merged line does not depend on
the order of the revisions.
-/

namespace LineLint

namespace Composition

def hunksOf (base : Text) (revisions : List Text) : List Hunk :=
  revisions.flatMap fun r => Hunk.between base r.dropIndentation

def InsertsOnce (hunks : List Hunk) : Prop :=
  ∀ h ∈ hunks, ∀ k ∈ hunks, h.isInsert = true → k.isInsert = true → h.start = k.start → h = k

instance (hunks : List Hunk) : Decidable (InsertsOnce hunks) :=
  inferInstanceAs (Decidable (∀ h ∈ hunks, ∀ k ∈ hunks,
    h.isInsert = true → k.isInsert = true → h.start = k.start → h = k))

section Accepted

variable {base : Text} {revisions permuted : List Text}

theorem accepted_of_rejected_eq_nil (h : (ofRevisions base revisions).rejected = []) :
    (ofRevisions base revisions).accepted = (hunksOf base revisions).eraseDups := by
  have hall : entriesOff [] 0 revisions = revisions := by simp [entriesOff]
  rw [accepted_ofRevisions, h, carriedHunks, hall, hunksOf]

theorem rejected_eq_nil_iff :
    (ofRevisions base revisions).rejected = [] ↔
      ∀ h ∈ hunksOf base revisions, ∀ k ∈ hunksOf base revisions, h.conflicts k = false := by
  constructor
  · intro hnone h hh k hk
    have hapart := isApart_accepted_ofRevisions base revisions
    rw [accepted_of_rejected_eq_nil hnone] at hapart
    exact hapart.compatible h (List.mem_eraseDups.mpr hh) k (List.mem_eraseDups.mpr hk)
  · intro hfree
    refine List.eq_nil_iff_forall_not_mem.mpr fun i hi => ?_
    have hlt : i < revisions.length :=
      List.mem_range.mp ((rejected_sublist_range base revisions).subset hi)
    have hget : revisions[i]? = some revisions[i] := List.getElem?_eq_getElem hlt
    obtain ⟨h, hh, j, q, -, hq, -, k, hk, hconflict⟩ := (mem_rejected_iff hget).mp hi
    have hmem : h ∈ hunksOf base revisions :=
      List.mem_flatMap.mpr ⟨_, List.getElem_mem hlt, hh⟩
    have kmem : k ∈ hunksOf base revisions :=
      List.mem_flatMap.mpr ⟨q, List.mem_of_getElem? hq, hk⟩
    rw [hfree h hmem k kmem] at hconflict
    cases hconflict

theorem hunksOf_perm (h : permuted.Perm revisions) :
    (hunksOf base permuted).Perm (hunksOf base revisions) :=
  h.flatMap_right _

theorem rejected_eq_nil_of_perm (h : permuted.Perm revisions)
    (hnone : (ofRevisions base revisions).rejected = []) :
    (ofRevisions base permuted).rejected = [] := by
  rw [rejected_eq_nil_iff] at hnone ⊢
  intro a ha b hb
  exact hnone a ((hunksOf_perm h).mem_iff.mp ha) b ((hunksOf_perm h).mem_iff.mp hb)

theorem accepted_perm (h : permuted.Perm revisions)
    (hnone : (ofRevisions base revisions).rejected = []) :
    (ofRevisions base permuted).accepted.Perm (ofRevisions base revisions).accepted := by
  refine (List.perm_ext_iff_of_nodup (isApart_accepted_ofRevisions base permuted).nodup
    (isApart_accepted_ofRevisions base revisions).nodup).mpr fun k => ?_
  rw [accepted_of_rejected_eq_nil hnone,
    accepted_of_rejected_eq_nil (rejected_eq_nil_of_perm h hnone), List.mem_eraseDups,
    List.mem_eraseDups]
  exact (hunksOf_perm h).mem_iff

end Accepted

section Permuted

variable {base : Text} {hunks other : List Hunk}

/-- Whether an insertion is absorbed depends on which replacements there are, not on their order. -/
theorem absorbed_of_perm (h : other.Perm hunks) : absorbed other = absorbed hunks := by
  funext k
  rw [absorbed, absorbed, h.any_eq]

theorem eq_of_perm_of_forall_eq {α : Type} {xs ys : List α} (h : xs.Perm ys)
    (hequal : ∀ x ∈ ys, ∀ y ∈ ys, x = y) : xs = ys := by
  have htrivial (zs : List α) : zs.Pairwise fun _ _ => True :=
    List.pairwise_of_forall_mem_list fun _ _ _ _ => trivial
  exact h.eq_of_pairwise (fun x y hx hy _ _ => hequal x (h.mem_iff.mp hx) y hy) (htrivial xs)
    (htrivial ys)

theorem simultaneous_of_perm (h : other.Perm hunks) (hapart : IsApart base hunks)
    (honce : InsertsOnce hunks) : simultaneous base other = simultaneous base hunks := by
  refine List.flatMap_congr fun position _ => ?_
  have hinserts : other.filter (inserts position) = hunks.filter (inserts position) := by
    refine eq_of_perm_of_forall_eq (h.filter _) fun k hk l hl => ?_
    obtain ⟨hk, kinserts⟩ := List.mem_filter.mp hk
    obtain ⟨hl, linserts⟩ := List.mem_filter.mp hl
    simp only [inserts, Bool.and_eq_true, beq_iff_eq] at kinserts linserts
    exact honce k hk l hl kinserts.1 linserts.1 (kinserts.2.trans linserts.2.symm)
  have hreplaces : other.filter (replaces position) = hunks.filter (replaces position) := by
    refine eq_of_perm_of_forall_eq (h.filter _) fun k hk l hl => ?_
    obtain ⟨hk, kreplaces⟩ := List.mem_filter.mp hk
    obtain ⟨hl, lreplaces⟩ := List.mem_filter.mp hl
    simp only [replaces, Bool.and_eq_true, Bool.not_eq_true', beq_iff_eq] at kreplaces lreplaces
    by_contra hne
    -- Two replacements from one position on overlap there.
    have hseparate := Hunk.separate_of_conflicts_eq_false hne (hapart.compatible k hk l hl)
      kreplaces.1 lreplaces.1
    have hkle := (hapart.within k hk).1
    have hlle := (hapart.within l hl).1
    have hkne : k.start ≠ k.stop := by simpa [Hunk.isInsert] using kreplaces.1
    have hlne : l.start ≠ l.stop := by simpa [Hunk.isInsert] using lreplaces.1
    omega
  rw [standing, standing, hinserts, hreplaces, h.any_eq]

theorem IsApart.of_perm (hapart : IsApart base hunks) (h : other.Perm hunks) :
    IsApart base other :=
  ⟨h.nodup_iff.mpr hapart.nodup, fun k hk => hapart.within k (h.mem_iff.mp hk), fun k hk l hl =>
    hapart.compatible k (h.mem_iff.mp hk) l (h.mem_iff.mp hl)⟩

theorem InsertsOnce.filter (h : InsertsOnce hunks) (p : Hunk → Bool) :
    InsertsOnce (hunks.filter p) := fun k hk l hl =>
  h k (List.mem_of_mem_filter hk) l (List.mem_of_mem_filter hl)

theorem merged_of_perm {c d : Composition} (h : d.accepted.Perm c.accepted)
    (hapart : IsApart base c.accepted) (honce : InsertsOnce c.accepted) :
    d.merged base = c.merged base := by
  have hreplacing := h.filter fun k => !k.isInsert
  have hkept :
      (d.accepted.filter fun k => !absorbed (d.accepted.filter fun k => !k.isInsert) k).Perm
        (c.accepted.filter fun k => !absorbed (c.accepted.filter fun k => !k.isInsert) k) := by
    rw [absorbed_of_perm hreplacing]
    exact h.filter _
  have hkeptApart := hapart.filter
    fun k => !absorbed (c.accepted.filter fun k => !k.isInsert) k
  rw [merged, merged, spell_mergeSort_eq_simultaneous (hkeptApart.of_perm hkept),
    spell_mergeSort_eq_simultaneous hkeptApart]
  exact simultaneous_of_perm hkept hkeptApart (honce.filter _)

end Permuted

/-- Revisions that are all accepted, and of which no two insert different texts at one position,
are all accepted in any order and compose to the same line. -/
theorem composeRevisions_of_perm (line : Text) (revisions permuted : List Text)
    (haccepted : (composeRevisions line revisions).2 = [])
    (honce : InsertsOnce (hunksOf line.dropIndentation revisions))
    (hperm : permuted.Perm revisions) :
    (composeRevisions line permuted).2 = [] ∧
      (composeRevisions line permuted).1 = (composeRevisions line revisions).1 := by
  have hapart := isApart_accepted_ofRevisions line.dropIndentation revisions
  refine ⟨rejected_eq_nil_of_perm hperm haccepted, ?_⟩
  refine merged_of_perm (accepted_perm hperm haccepted) hapart ?_
  rw [accepted_of_rejected_eq_nil haccepted]
  intro h hh k hk
  exact honce h (List.mem_eraseDups.mp hh) k (List.mem_eraseDups.mp hk)

/-- The spaces around an operator and a word in its place: whichever comes second, the spaces are
absorbed. -/
theorem composeRevisions_of_perm_spacedWord :
    let line : Text := " a!=b".toList
    let spaced : Text := " a != b".toList
    let word : Text := " a is not b".toList
    (composeRevisions line [spaced, word]).2 = [] ∧
      InsertsOnce (hunksOf line.dropIndentation [spaced, word]) ∧
      [word, spaced].Perm [spaced, word] ∧
      (composeRevisions line [word, spaced]).2 = [] ∧
      (composeRevisions line [word, spaced]).1 = (composeRevisions line [spaced, word]).1 := by
  intro line spaced word
  have haccepted : (composeRevisions line [spaced, word]).2 = [] := by decide +kernel
  have honce : InsertsOnce (hunksOf line.dropIndentation [spaced, word]) := by decide +kernel
  have hperm : [word, spaced].Perm [spaced, word] := List.Perm.swap spaced word []
  exact ⟨haccepted, honce, hperm,
    composeRevisions_of_perm line [spaced, word] [word, spaced] haccepted honce hperm⟩

end Composition

end LineLint
