import LineLint.Proofs.CharacterClasses
import LineLint.Proofs.PatternPlaces
import LineLint.Proofs.ScannedText
import LineLint.Proofs.SpaceableCells

/-!
# Generic spans at other places

The angle brackets of a generic span are balanced: the depth comes back to zero with the last of
them and not before. Two spans that overlap therefore end together or lie one in the other, and
wherever the text of a span stands behind no name, its angle brackets are protected again.
-/

namespace LineLint

open Cursor (Passes)

namespace ProtectedSpan

section Depth

def angleDepth (t : Text) : Int := Int.ofNat (t.count '<') - Int.ofNat (t.count '>')

@[simp] theorem angleDepth_nil : angleDepth [] = 0 := rfl

@[simp] theorem angleDepth_append (s t : Text) :
    angleDepth (s ++ t) = angleDepth s + angleDepth t := by
  simp only [angleDepth, List.count_append, Int.ofNat_eq_natCast]
  omega

theorem angleDepth_of_forall {t : Text} (h : ∀ c ∈ t, c ≠ '<' ∧ c ≠ '>') : angleDepth t = 0 := by
  have hless : t.count '<' = 0 := List.count_eq_zero.mpr fun hmem => (h '<' hmem).1 rfl
  have hgreater : t.count '>' = 0 := List.count_eq_zero.mpr fun hmem => (h '>' hmem).2 rfl
  simp [angleDepth, hless, hgreater]

structure IsBalanced (t : Text) : Prop where
  depth_eq : angleDepth t = 0
  depth_prefix : ∀ u, u <+: t → 0 ≤ angleDepth u

/-- A text whose first angle bracket is closed by its last character. -/
structure IsAngled (t : Text) : Prop where
  head? : t.head? = some '<'
  depth_eq : angleDepth t = 0
  depth_prefix : ∀ u, u <+: t → u ≠ [] → u ≠ t → 0 < angleDepth u

variable {s t u more : Text}

theorem isBalanced_of_forall (h : ∀ c ∈ t, c ≠ '<' ∧ c ≠ '>') : IsBalanced t :=
  ⟨angleDepth_of_forall h, fun _ hu =>
    Int.le_of_eq (angleDepth_of_forall fun c hc => h c (hu.subset hc)).symm⟩

theorem IsBalanced.append (hs : IsBalanced s) (ht : IsBalanced t) : IsBalanced (s ++ t) := by
  refine ⟨by rw [angleDepth_append, hs.depth_eq, ht.depth_eq]; rfl, fun u hu => ?_⟩
  rcases Text.prefix_append_cases hu with hwithin | ⟨v, rfl, hv⟩
  · exact hs.depth_prefix u hwithin
  · rw [angleDepth_append, hs.depth_eq, Int.zero_add]
    exact ht.depth_prefix v hv

theorem IsBalanced.isAngled (h : IsBalanced t) : IsAngled ('<' :: (t ++ ['>'])) := by
  have hcons (u : Text) : angleDepth ('<' :: u) = 1 + angleDepth u := by
    rw [← List.singleton_append, angleDepth_append]
    rfl
  refine ⟨rfl, ?_, fun u hu hne hproper => ?_⟩
  · rw [hcons, angleDepth_append, h.depth_eq]
    rfl
  · obtain ⟨c, u, rfl⟩ := List.exists_cons_of_ne_nil hne
    obtain ⟨rfl, hinner⟩ := List.cons_prefix_cons.mp hu
    rw [hcons]
    rcases Text.prefix_append_cases hinner with hwithin | ⟨v, rfl, hv⟩
    · have hdepth := h.depth_prefix u hwithin
      omega
    · have hnil : v = [] := by
        cases v with
        | nil => rfl
        | cons d v =>
            obtain ⟨rfl, hnil⟩ := List.cons_prefix_cons.mp hv
            exact absurd (by rw [List.prefix_nil.mp hnil]) hproper
      rw [hnil, List.append_nil, h.depth_eq]
      decide

theorem IsAngled.isBalanced (h : IsAngled t) : IsBalanced t := by
  refine ⟨h.depth_eq, fun u hu => ?_⟩
  by_cases hne : u = []
  · rw [hne]
    decide
  · by_cases hwhole : u = t
    · exact Int.le_of_eq (hwhole ▸ h.depth_eq.symm)
    · exact Int.le_of_lt (h.depth_prefix u hu hne hwhole)

theorem IsAngled.ne_nil (h : IsAngled t) : t ≠ [] := by
  rintro rfl
  cases h.head?

/-- From one place on, there is but one text in matching angle brackets. -/
theorem IsAngled.eq_of_prefix (hs : IsAngled s) (ht : IsAngled t) (h : s <+: t) : s = t := by
  by_contra hne
  have hdepth := ht.depth_prefix s h hs.ne_nil hne
  rw [hs.depth_eq] at hdepth
  exact absurd hdepth (Int.lt_irrefl 0)

theorem IsAngled.eq (hs : IsAngled s) (ht : IsAngled t) (hsu : s <+: u) (htu : t <+: u) :
    s = t := by
  rcases List.prefix_or_prefix_of_prefix hsu htu with h | h
  · exact hs.eq_of_prefix ht h
  · exact (ht.eq_of_prefix hs h).symm

/-- Angle brackets that open between other ones close before them. -/
theorem IsAngled.append_prefix (hs : IsAngled s) (ht : IsBalanced t) (hu : u <+: s) (hne : u ≠ [])
    (hproper : u ≠ s) (hsm : s <+: more) (htm : u ++ t <+: more) : u ++ t <+: s := by
  rcases List.prefix_or_prefix_of_prefix htm hsm with h | h
  · exact h
  · rcases Text.prefix_append_cases h with hwithin | ⟨v, rfl, hv⟩
    · exact absurd (hu.eq_of_length_le hwithin.length_le) hproper
    · have hopen := hs.depth_prefix u hu hne hproper
      have hclosed := hs.depth_eq
      rw [angleDepth_append] at hclosed
      have hinner := ht.depth_prefix v hv
      omega

end Depth

section Shape

variable {c d : Cursor} {taken : Text}

def isAtom (c : Char) : Bool :=
  isWordChar c || isBlank c || [',', '.', ':', '?', '[', ']'].contains c

theorem ne_angle_of_isAtom {x : Char} (h : isAtom x = true) : x ≠ '<' ∧ x ≠ '>' := by
  refine ⟨?_, ?_⟩
  all_goals
    rintro rfl
    exact absurd h (by decide)

structure IsArgument (t : Text) : Prop extends IsBalanced t where
  chars : ∀ c ∈ t, isAtom c = true ∨ c = '<' ∨ c = '>'

theorem IsArgument.append {s t : Text} (hs : IsArgument s) (ht : IsArgument t) :
    IsArgument (s ++ t) :=
  ⟨hs.toIsBalanced.append ht.toIsBalanced, List.forall_mem_append.mpr ⟨hs.chars, ht.chars⟩⟩

def MatchesArguments (p : Pattern) : Prop :=
  ∀ c d, d ∈ p.results c → ∃ taken, Passes taken c d ∧ IsArgument taken

theorem isArgument_nil : IsArgument [] := ⟨isBalanced_of_forall (by simp), by simp⟩

theorem matchesArguments_atom : MatchesArguments atom := by
  intro c d h
  obtain ⟨x, hx, hpasses⟩ := Pattern.passes_of_mem_one h
  refine ⟨[x], hpasses, isBalanced_of_forall ?_, List.forall_mem_singleton.mpr (Or.inl hx)⟩
  exact List.forall_mem_singleton.mpr (ne_angle_of_isAtom hx)

theorem matchesArguments_alt {p q : Pattern} (hp : MatchesArguments p) (hq : MatchesArguments q) :
    MatchesArguments (p ||| q) := by
  intro c d h
  rcases List.mem_append.mp h with h | h
  · exact hp c d h
  · exact hq c d h

theorem matchesArguments_star {p : Pattern} (hp : MatchesArguments p) :
    MatchesArguments (.star p) := by
  intro c d h
  change d ∈ Pattern.repeated true p.results (c.rest.length) c at h
  generalize c.rest.length = rounds at h
  induction rounds generalizing c with
  | zero => exact ⟨[], List.mem_singleton.mp h ▸ Passes.refl d, isArgument_nil⟩
  | succ rounds ih =>
      rcases Pattern.mem_repeated_iff.mp h with rfl | ⟨e, he, -, h⟩
      · exact ⟨[], Passes.refl d, isArgument_nil⟩
      · obtain ⟨first, hfirst, hargument⟩ := hp c e he
        obtain ⟨more, hmore, hothers⟩ := ih e h
        exact ⟨first ++ more, hfirst.trans hmore, hargument.append hothers⟩

theorem exists_angled_of_mem_bracketed {p : Pattern} (hp : MatchesArguments p)
    (h : d ∈ (bracketed p).results c) :
    ∃ taken, Passes taken c d ∧ IsAngled taken ∧
      ∀ c ∈ taken, isAtom c = true ∨ c = '<' ∨ c = '>' := by
  obtain ⟨behindBody, hbody, hclose⟩ := Pattern.mem_results_append_iff.mp h
  obtain ⟨behindOpening, hopening, hbody⟩ := Pattern.mem_results_append_iff.mp hbody
  obtain ⟨opening, hless, hopening⟩ := Pattern.passes_of_mem_one hopening
  obtain ⟨body, hbody, hargument⟩ := matchesArguments_star hp _ _ hbody
  obtain ⟨closing, hgreater, hclose⟩ := Pattern.passes_of_mem_one hclose
  rw [eq_of_beq hless] at hopening
  rw [eq_of_beq hgreater] at hclose
  refine ⟨'<' :: (body ++ ['>']), hopening.trans (hbody.trans hclose),
    hargument.toIsBalanced.isAngled, ?_⟩
  rw [List.forall_mem_cons, List.forall_mem_append]
  exact ⟨by simp, hargument.chars, by simp⟩

theorem matchesArguments_bracketed {p : Pattern} (hp : MatchesArguments p) :
    MatchesArguments (bracketed p) := by
  intro c d h
  obtain ⟨taken, hpasses, hangled, hchars⟩ := exists_angled_of_mem_bracketed hp h
  exact ⟨taken, hpasses, hangled.isBalanced, hchars⟩

/-- The name of a generic span and the part in angle brackets behind it. -/
structure IsGeneric (name angles : Text) : Prop where
  head : ∃ first rest, name = first :: rest ∧ isWordChar first = true
  nameChars : ∀ c ∈ name, isWordChar c = true ∨ isBlank c = true ∨ c = '.' ∨ c = ':'
  angled : IsAngled angles
  chars : ∀ c ∈ angles, isAtom c = true ∨ c = '<' ∨ c = '>'

theorem IsGeneric.ne_angle {name angles : Text} (h : IsGeneric name angles) :
    ∀ c ∈ name, c ≠ '<' ∧ c ≠ '>' := by
  intro c hc
  apply ne_angle_of_isAtom
  rcases h.nameChars c hc with hword | hblank | rfl | rfl
  · simp [isAtom, hword]
  · simp [isAtom, hblank]
  · decide
  · decide

/-- A generic span without what it asks of the character before it. -/
def genericBody : Pattern :=
  .nameStart ++ (.star (.one fun c => isWordChar c || c == '.' || c == ':') ++ (.opt .blank ++
    bracketed (atom ||| bracketed (atom ||| bracketed atom))))

theorem isFree_genericBody : genericBody.IsFree := by
  simp [genericBody, bracketed, atom, Pattern.nameStart, Pattern.star, Pattern.opt, Pattern.blank,
    Pattern.char, HAppend.hAppend, Append.append, HOr.hOr, OrOp.or, Pattern.IsFree]

theorem exists_isGeneric (h : d ∈ genericBody.results c) :
    ∃ name angles, Passes (name ++ angles) c d ∧ IsGeneric name angles := by
  obtain ⟨behindFirst, hfirst, h⟩ := Pattern.mem_results_append_iff.mp h
  obtain ⟨behindName, hmore, h⟩ := Pattern.mem_results_append_iff.mp h
  obtain ⟨atAngle, hblank, hangles⟩ := Pattern.mem_results_append_iff.mp h
  obtain ⟨first, hletter, hfirst⟩ := Pattern.passes_of_mem_one hfirst
  obtain ⟨more, hpasses⟩ := Pattern.passes_of_mem_results hmore
  have hchars := Pattern.forall_of_mem_star_one hmore hpasses
  obtain ⟨blank, hblanks, hpasses'⟩ : ∃ blank : Text, (∀ c ∈ blank, isBlank c = true) ∧
      Passes blank behindName atAngle := by
    rcases List.mem_append.mp hblank with hone | hnone
    · obtain ⟨x, hx, hpasses⟩ := Pattern.passes_of_mem_one hone
      exact ⟨[x], List.forall_mem_singleton.mpr hx, hpasses⟩
    · exact ⟨[], List.forall_mem_nil _, List.mem_singleton.mp hnone ▸ Passes.refl atAngle⟩
  obtain ⟨angles, hangles, hangled, hatoms⟩ := exists_angled_of_mem_bracketed
    (matchesArguments_alt matchesArguments_atom (matchesArguments_bracketed
      (matchesArguments_alt matchesArguments_atom (matchesArguments_bracketed
        matchesArguments_atom)))) hangles
  have hword := isWordChar_of_nameStart hletter
  refine ⟨first :: (more ++ blank), angles, ?_, ⟨first, _, rfl, hword⟩, ?_, hangled, hatoms⟩
  · have hpassed := hfirst.trans (hpasses.trans (hpasses'.trans hangles))
    simpa using hpassed
  · rw [List.forall_mem_cons, List.forall_mem_append]
    refine ⟨Or.inl hword, fun c hc => ?_, fun c hc => Or.inr (Or.inl (hblanks c hc))⟩
    have hchar := hchars c hc
    simp only [Bool.or_eq_true, beq_iff_eq] at hchar
    rcases hchar with (hword | hdot) | hcolon
    · exact Or.inl hword
    · exact Or.inr (Or.inr (Or.inl hdot))
    · exact Or.inr (Or.inr (Or.inr hcolon))

end Shape

section Search

variable {t before name angles after : Text} {m : Match} {c d : Cursor}

theorem mem_results_genericSpan_iff :
    d ∈ genericSpan.results c ↔
      c.previous.any LiteralStyle.isNamePart = false ∧ d ∈ genericBody.results c := by
  rw [genericSpan, Pattern.results_append_assoc, Pattern.results_append_assoc,
    Pattern.results_append_assoc, Pattern.mem_results_notAfter_iff]
  rfl

/-- A generic span that can be matched at a place of the text: the text before it, its name, its
angle brackets, and the text behind it. -/
structure IsGenericAt (before name angles after : Text) : Prop where
  previous : before.getLast?.any LiteralStyle.isNamePart = false
  isGeneric : IsGeneric name angles
  exists_results : ∃ c d, d ∈ genericBody.results c ∧ Passes (name ++ angles) c d

theorem exists_isGenericAt (h : m ∈ genericSpan.findAll t) :
    ∃ before name angles after, t = before ++ (name ++ (angles ++ after)) ∧
      m.start = before.length ∧ m.stop = (before ++ (name ++ angles)).length ∧
      IsGenericAt before name angles after := by
  obtain ⟨before, taken, after, d, rfl, hstart, hstop, -, hpasses, hd⟩ :=
    Pattern.exists_results_of_mem_findAll h
  obtain ⟨hprevious, hbody⟩ := mem_results_genericSpan_iff.mp hd
  obtain ⟨name, angles, hpasses', hgeneric⟩ := exists_isGeneric hbody
  obtain rfl := hpasses.eq hpasses'
  exact ⟨before, name, angles, after, by simp, hstart, by rw [hstop, ← List.length_append],
    hprevious, hgeneric, _, d, hbody, hpasses'⟩

theorem IsGeneric.exists_cons (h : IsGeneric name angles) : ∃ rest, angles = '<' :: rest :=
  List.head?_eq_some_iff.mp h.angled.head?

theorem anglePart_eq (after : Text) (hgeneric : IsGeneric name angles)
    (hstart : m.start = before.length) (hstop : m.stop = (before ++ (name ++ angles)).length) :
    anglePart (before ++ (name ++ (angles ++ after))) m =
      ⟨(before ++ name).length, (before ++ (name ++ angles)).length⟩ := by
  have hslice : Text.slice (before ++ (name ++ (angles ++ after))) m.start m.stop =
      name ++ angles := by
    have hwhole : before ++ (name ++ (angles ++ after)) = before ++ (name ++ angles) ++ after := by
      simp
    rw [hwhole, Text.slice, hstart, hstop, List.take_left, List.drop_left]
  obtain ⟨rest, hrest⟩ := hgeneric.exists_cons
  have hname : (name ++ angles).takeWhile (· != '<') = name := by
    have hall : ∀ c ∈ name, (c != '<') = true := fun c hc => by
      simpa using (hgeneric.ne_angle c hc).1
    rw [List.takeWhile_append_of_pos hall, hrest,
      List.takeWhile_cons_of_neg (by simp), List.append_nil]
  rw [anglePart, hslice, hname, hstart, hstop, @List.length_append _ before name]

/-- Where a generic span can be matched, the place where it starts lies within a match that is
found. -/
theorem IsGenericAt.exists_match (h : IsGenericAt before name angles after) :
    ∃ m ∈ genericSpan.findAll (before ++ (name ++ (angles ++ after))),
      m.start ≤ before.length ∧ before.length < m.stop := by
  obtain ⟨hprevious, hgeneric, c, d, hd, hpasses⟩ := h
  have hrest : (⟨before.length, before.getLast?, name ++ (angles ++ after), []⟩ : Cursor).rest =
      (name ++ angles) ++ after := (List.append_assoc ..).symm
  obtain ⟨d', hd', hpasses'⟩ := Pattern.exists_results_of_isFree isFree_genericBody hd hpasses hrest
  obtain ⟨opening, hopening⟩ := hgeneric.exists_cons
  have hproper : before.length < d'.position := by
    rw [hpasses'.position, hopening]
    simp only [List.length_append, List.length_cons]
    omega
  exact Pattern.exists_mem_findAll (mem_results_genericSpan_iff.mpr ⟨hprevious, hd'⟩) hproper

variable {name₂ angles₂ after₂ : Text}

/-- Names that go on to an angle bracket from one place are the same, and so are the parts in angle
brackets behind them. -/
theorem IsGeneric.eq_of_append_eq (h : IsGeneric name angles) (h₂ : IsAngled angles₂)
    (hname₂ : ∀ c ∈ name₂, c ≠ '<')
    (heq : name ++ (angles ++ after) = name₂ ++ (angles₂ ++ after₂)) :
    name = name₂ ∧ angles = angles₂ := by
  obtain ⟨opening, hopening⟩ := h.exists_cons
  obtain ⟨opening₂, hopening₂⟩ := List.head?_eq_some_iff.mp h₂.head?
  have hsame : name = name₂ := by
    rw [hopening, hopening₂, List.cons_append, List.cons_append] at heq
    exact Text.eq_of_append_cons (fun hless => (h.ne_angle _ hless).1 rfl)
      (fun hless => hname₂ _ hless rfl) heq
  refine ⟨hsame, ?_⟩
  rw [hsame] at heq
  have hangles := List.append_cancel_left heq
  refine h.angled.eq h₂ (List.prefix_append angles after) ?_
  rw [hangles]
  exact List.prefix_append _ _

/-- A generic span that starts between the angle brackets of another one ends before they close. -/
theorem IsGeneric.length_le_of_within (h : IsGeneric name angles) (h₂ : IsAngled angles₂)
    {y : Text} (heq : angles₂ ++ after₂ = y ++ (name ++ (angles ++ after)))
    (hshorter : y.length < angles₂.length) : (y ++ (name ++ angles)).length ≤ angles₂.length := by
  have hy : y ≠ [] := by
    rintro rfl
    obtain ⟨first, others, hfirst, hword⟩ := h.head
    obtain ⟨opening₂, hopening₂⟩ := List.head?_eq_some_iff.mp h₂.head?
    rw [hfirst, hopening₂] at heq
    obtain ⟨rfl, -⟩ := List.cons.inj heq
    exact absurd hword (by decide)
  have hystart : y <+: angles₂ ++ after₂ := by
    rw [heq]
    exact List.prefix_append _ _
  have hyangles : y <+: angles₂ :=
    List.prefix_of_prefix_length_le hystart (List.prefix_append _ _) (Nat.le_of_lt hshorter)
  have hinner : IsBalanced (name ++ angles) :=
    (isBalanced_of_forall h.ne_angle).append h.angled.isBalanced
  have hmore : y ++ (name ++ angles) <+: angles₂ ++ after₂ := by
    refine ⟨after, ?_⟩
    rw [heq]
    simp only [List.append_assoc]
  refine (h₂.append_prefix hinner hyangles hy ?_ (List.prefix_append angles₂ after₂)
    hmore).length_le
  rintro rfl
  exact Nat.lt_irrefl _ hshorter

/-- Wherever a generic span can be matched, its angle brackets are part of a match that is found:
of this one, or of one that starts before it and holds it. -/
theorem exists_anglePart_holds (h : IsGenericAt before name angles after) :
    ∃ m ∈ genericSpan.findAll (before ++ (name ++ (angles ++ after))),
      (anglePart (before ++ (name ++ (angles ++ after))) m).start ≤ (before ++ name).length ∧
        (before ++ (name ++ angles)).length ≤
          (anglePart (before ++ (name ++ (angles ++ after))) m).stop := by
  obtain ⟨m, hm, hstart, hstop⟩ := h.exists_match
  refine ⟨m, hm, ?_⟩
  obtain ⟨before₂, name₂, angles₂, after₂, hsplit, hstart₂, hstop₂, hat₂⟩ := exists_isGenericAt hm
  have hgeneric := h.isGeneric
  have hgeneric₂ := hat₂.isGeneric
  have hpart := anglePart_eq after₂ hgeneric₂ hstart₂ hstop₂
  rw [← hsplit] at hpart
  rw [hpart]
  rw [hstart₂] at hstart
  rw [hstop₂] at hstop
  obtain ⟨z, rfl⟩ : ∃ z, before = before₂ ++ z := by
    have hwithin : before₂ <+: before ++ (name ++ (angles ++ after)) :=
      hsplit ▸ List.prefix_append before₂ _
    have hbegins := List.prefix_of_prefix_length_le hwithin (List.prefix_append before _) hstart
    exact ⟨_, (List.prefix_iff_eq_append.mp hbegins).symm⟩
  rw [List.append_assoc] at hsplit
  have hrest := List.append_cancel_left hsplit
  rcases List.append_eq_append_iff.mp hrest with ⟨w, rfl, hmore⟩ | ⟨y, rfl, hmore⟩
  · -- the name of the match goes on up to the same angle bracket
    obtain ⟨rfl, rfl⟩ := hgeneric.eq_of_append_eq hgeneric₂.angled
      (fun c hc => (hgeneric₂.ne_angle c (List.mem_append_right _ hc)).1) hmore
    simp
  · -- the name stands between the angle brackets of the match
    have hshorter : y.length < angles₂.length := by
      simp only [List.length_append] at hstop
      omega
    have hlength := hgeneric.length_le_of_within hgeneric₂.angled hmore hshorter
    simp only [List.length_append] at hlength ⊢
    omega

end Search

end ProtectedSpan

end LineLint
