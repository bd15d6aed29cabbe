import LineLint.Proofs.MatchedText

/-!
# Matches at other places

A pattern that asks nothing of what stands around it matches a text wherever that text stands. A
search over a whole line holds every place at which something can be matched: the match that is
found there, or one that was found before and takes up the place.
-/

namespace LineLint

namespace Cursor

variable {c d : Cursor} {taken more : Text}

theorem Passes.rest_eq {rest : Text} (h : Passes taken c d) (hrest : c.rest = taken ++ rest) :
    d.rest = rest := by
  rw [h.rest] at hrest
  exact List.append_cancel_left hrest

theorem Passes.eq_nil (h : Passes taken c d) (hsame : d = c) : taken = [] := by
  subst hsame
  simpa using h.rest

theorem passes_step? {x : Char} {p : Char → Bool} {rest : Text} (hx : p x = true)
    (hrest : c.rest = x :: rest) : ∃ d, c.step? p = some d ∧ Passes [x] c d := by
  refine ⟨⟨c.position + 1, some x, rest, c.groups⟩, ?_, hrest, rfl, rfl⟩
  rw [step?, hrest]
  exact if_pos hx

end Cursor

namespace Pattern

open Cursor (Passes)

/-- A pattern that asks nothing of what stands around a match or was matched before. -/
def IsFree : Pattern → Prop
  | empty => True
  | one _ => True
  | seq first second => IsFree first ∧ IsFree second
  | alt first second => IsFree first ∧ IsFree second
  | many _ limit body => limit = none ∧ IsFree body
  | group _ body => IsFree body
  | again _ _ => False
  | edge _ => False

section Free

variable {p : Pattern} {c c' d : Cursor} {taken rest : Text}

theorem isFree_append {first second : Pattern} (hfirst : first.IsFree) (hsecond : second.IsFree) :
    (first ++ second).IsFree :=
  ⟨hfirst, hsecond⟩

theorem isFree_textPattern (t : Text) : (textPattern t).IsFree := by
  induction t with
  | nil => exact trivial
  | cons c t ih => exact ⟨trivial, ih⟩

theorem isFree_choice {ps : List Pattern} (h : ∀ p ∈ ps, p.IsFree) : (choice ps).IsFree := by
  induction ps with
  | nil => exact trivial
  | cons p ps ih =>
      obtain ⟨hp, hps⟩ := List.forall_mem_cons.mp h
      cases ps with
      | nil => exact hp
      | cons q qs => exact ⟨hp, ih hps⟩

theorem mem_repeated_iff {greedy : Bool} {step : Cursor → List Cursor} {rounds : Nat} :
    d ∈ repeated greedy step (rounds + 1) c ↔
      d = c ∨ ∃ e ∈ step c, c.position < e.position ∧ d ∈ repeated greedy step rounds e := by
  simp only [repeated]
  split_ifs
  · simp only [List.mem_append, List.mem_flatMap, List.mem_filter, decide_eq_true_eq,
      List.mem_singleton, and_assoc]
    exact or_comm
  · simp only [List.mem_cons, List.mem_flatMap, List.mem_filter, decide_eq_true_eq, and_assoc]

theorem mem_repeated_self (greedy : Bool) (step : Cursor → List Cursor) (rounds : Nat)
    (c : Cursor) : c ∈ repeated greedy step rounds c := by
  cases rounds with
  | zero => exact List.mem_singleton_self c
  | succ rounds => exact mem_repeated_iff.mpr (Or.inl rfl)

/-- Rounds that pass over a text pass over it at other places too, if there may be as many of them
as the text has characters. -/
theorem exists_mem_repeated {greedy : Bool} {step : Cursor → List Cursor}
    (hpasses : ∀ c d, d ∈ step c → ∃ taken, Passes taken c d)
    (hstep : ∀ c c' d taken rest, d ∈ step c → Passes taken c d → c'.rest = taken ++ rest →
      ∃ d' ∈ step c', Passes taken c' d')
    {rounds rounds' : Nat} (h : d ∈ repeated greedy step rounds c) (htaken : Passes taken c d)
    (hrest : c'.rest = taken ++ rest) (hrounds : taken.length ≤ rounds') :
    ∃ d' ∈ repeated greedy step rounds' c', Passes taken c' d' := by
  induction rounds generalizing c c' taken rounds' with
  | zero =>
      obtain rfl := htaken.eq_nil (List.mem_singleton.mp h)
      exact ⟨c', mem_repeated_self greedy step rounds' c', Passes.refl c'⟩
  | succ rounds ih =>
      rcases mem_repeated_iff.mp h with hsame | ⟨e, he, hproper, hlater⟩
      · obtain rfl := htaken.eq_nil hsame
        exact ⟨c', mem_repeated_self greedy step rounds' c', Passes.refl c'⟩
      · obtain ⟨first, hfirst⟩ := hpasses c e he
        obtain ⟨second, hsecond⟩ :=
          passes_of_mem_repeated hpasses hlater
        obtain rfl := htaken.eq (hfirst.trans hsecond)
        rw [List.append_assoc] at hrest
        obtain ⟨e', he', hfirst'⟩ := hstep c c' e first _ he hfirst hrest
        have hnonempty : 0 < first.length := by
          rw [hfirst.position] at hproper
          omega
        rw [List.length_append] at hrounds
        obtain ⟨rounds', rfl⟩ : ∃ k, rounds' = k + 1 := ⟨rounds' - 1, by omega⟩
        have hleft : second.length ≤ rounds' := by omega
        obtain ⟨d', hd', hsecond'⟩ := ih hlater hsecond (hfirst'.rest_eq hrest) hleft
        refine ⟨d', mem_repeated_iff.mpr (Or.inr ⟨e', he', ?_, hd'⟩), hfirst'.trans hsecond'⟩
        rw [hfirst'.position]
        omega

/-- What a free pattern matches somewhere it matches everywhere. -/
theorem exists_results_of_isFree (hp : p.IsFree) (h : d ∈ p.results c) (htaken : Passes taken c d)
    (hrest : c'.rest = taken ++ rest) : ∃ d' ∈ p.results c', Passes taken c' d' := by
  induction p generalizing c c' d taken rest with
  | empty =>
      obtain rfl := htaken.eq_nil (List.mem_singleton.mp h)
      exact ⟨c', List.mem_singleton_self c', Passes.refl c'⟩
  | one p =>
      obtain ⟨x, hx, hpasses⟩ := passes_of_mem_one h
      obtain rfl := htaken.eq hpasses
      obtain ⟨d', hd', hpasses'⟩ := Cursor.passes_step? hx hrest
      exact ⟨d', Option.mem_toList.mpr hd', hpasses'⟩
  | seq first second ihf ihs =>
      obtain ⟨e, he, hd⟩ := mem_results_append_iff.mp h
      obtain ⟨front, hfront⟩ := passes_of_mem_results he
      obtain ⟨back, hback⟩ := passes_of_mem_results hd
      obtain rfl := htaken.eq (hfront.trans hback)
      rw [List.append_assoc] at hrest
      obtain ⟨e', he', hfront'⟩ := ihf hp.1 he hfront hrest
      obtain ⟨d', hd', hback'⟩ := ihs hp.2 hd hback (hfront'.rest_eq hrest)
      exact ⟨d', mem_results_append_iff.mpr ⟨e', he', hd'⟩, hfront'.trans hback'⟩
  | alt first second ihf ihs =>
      rcases List.mem_append.mp h with h | h
      · obtain ⟨d', hd', hpasses⟩ := ihf hp.1 h htaken hrest
        exact ⟨d', List.mem_append_left _ hd', hpasses⟩
      · obtain ⟨d', hd', hpasses⟩ := ihs hp.2 h htaken hrest
        exact ⟨d', List.mem_append_right _ hd', hpasses⟩
  | many greedy limit body ih =>
      obtain ⟨rfl, hbody⟩ := hp
      refine exists_mem_repeated (fun _ _ => passes_of_mem_results) ?_ h htaken hrest ?_
      · intro e e' d taken rest hd hpasses hrest
        exact ih hbody hd hpasses hrest
      · rw [Option.getD_none, hrest, List.length_append]
        exact Nat.le_add_right _ _
  | group name body ih =>
      obtain ⟨inner, hinner, rfl⟩ := List.mem_map.mp h
      have hpasses : Passes taken c inner := ⟨htaken.rest, htaken.position, htaken.previous⟩
      obtain ⟨d', hd', hpasses'⟩ := ih hp hinner hpasses hrest
      exact ⟨d'.record name c', List.mem_map_of_mem hd', hpasses'.record name c'⟩
  | again name same => exact hp.elim
  | edge e => exact hp.elim

theorem forall_of_mem_star_one {q : Char → Bool} (h : d ∈ (star (one q)).results c)
    (htaken : Passes taken c d) : ∀ x ∈ taken, q x = true := by
  change d ∈ repeated true (one q).results (c.rest.length) c at h
  generalize c.rest.length = rounds at h
  induction rounds generalizing c taken with
  | zero =>
      rw [htaken.eq_nil (List.mem_singleton.mp h)]
      exact List.forall_mem_nil _
  | succ rounds ih =>
      rcases mem_repeated_iff.mp h with hsame | ⟨e, he, -, h⟩
      · rw [htaken.eq_nil hsame]
        exact List.forall_mem_nil _
      · obtain ⟨x, hx, hpasses⟩ := passes_of_mem_one he
        obtain ⟨more, hmore⟩ := passes_of_mem_repeated
          (fun _ _ => passes_of_mem_results) h
        have hall := ih hmore h
        rw [htaken.eq (hpasses.trans hmore)]
        exact List.forall_mem_cons.mpr ⟨hx, hall⟩

theorem exists_mem_star_one {q : Char → Bool} (htaken : ∀ x ∈ taken, q x = true)
    (hrest : c.rest = taken ++ rest) : ∃ d ∈ (star (one q)).results c, Passes taken c d := by
  suffices hrounds : ∀ rounds, taken.length ≤ rounds →
      ∃ d ∈ repeated true (one q).results rounds c, Passes taken c d by
    refine hrounds c.rest.length ?_
    rw [hrest, List.length_append]
    exact Nat.le_add_right _ _
  induction taken generalizing c with
  | nil => exact fun rounds _ => ⟨c, mem_repeated_self _ _ rounds c, Passes.refl c⟩
  | cons x taken ih =>
      intro rounds hlength
      obtain ⟨hx, hothers⟩ := List.forall_mem_cons.mp htaken
      obtain ⟨rounds, rfl⟩ : ∃ k, rounds = k + 1 := ⟨rounds - 1, by simp at hlength; omega⟩
      obtain ⟨e, he, hfirst⟩ := Cursor.passes_step? hx hrest
      obtain ⟨d, hd, hmore⟩ := ih hothers (hfirst.rest_eq hrest) rounds (by simpa using hlength)
      refine ⟨d, mem_repeated_iff.mpr (Or.inr ⟨e, Option.mem_toList.mpr he, ?_, hd⟩),
        hfirst.trans hmore⟩
      rw [hfirst.position]
      exact Nat.lt_succ_self _

end Free

section Guards

variable {p q s : Pattern} {c d : Cursor}

theorem results_append_assoc (p q s : Pattern) (c : Cursor) :
    (p ++ q ++ s).results c = (p ++ (q ++ s)).results c :=
  List.flatMap_assoc

theorem mem_results_notAfter_iff {class' : Char → Bool} :
    d ∈ (notAfter class' ++ p).results c ↔
      c.previous.any class' = false ∧ d ∈ p.results c := by
  rw [mem_results_append_iff]
  cases hprevious : c.previous.any class' with
  | true => simp [notAfter, results, Edge.holds, hprevious]
  | false => simp [notAfter, results, Edge.holds, hprevious]

end Guards

section Search

variable {p : Pattern} {before rest : Text} {d : Cursor}

/-- A proper match at a cursor is found there, or another one is. -/
theorem exists_mem_matchesAt {c : Cursor} (hd : d ∈ p.results c)
    (hproper : c.position < d.position) :
    ∃ m ∈ p.matchesAt c, m.start = c.position ∧ c.position < m.stop := by
  obtain ⟨first, others, hresults⟩ := List.exists_cons_of_ne_nil (List.ne_nil_of_mem hd)
  unfold matchesAt
  rw [first?_eq_head?, hresults, List.head?_cons, Option.map_some]
  simp only
  split_ifs with hempty
  · exact ⟨matchOf c first, List.mem_singleton_self _, rfl, hempty⟩
  · have hsome : ∃ m, p.firstProper? c = some m := by
      rw [firstProper?, firstWith_eq_findSome?]
      refine Option.isSome_iff_exists.mp (List.findSome?_isSome_iff.mpr ⟨d, hd, ?_⟩)
      rw [if_pos hproper]
      rfl
    obtain ⟨m, hm⟩ := hsome
    refine ⟨m, List.mem_cons_of_mem _ (Option.mem_toList.mpr hm), ?_⟩
    rw [firstProper?, firstWith_eq_findSome?] at hm
    obtain ⟨e, -, he⟩ := List.exists_of_findSome?_eq_some hm
    split_ifs at he with hlonger
    obtain rfl := Option.some.inj he
    exact ⟨rfl, hlonger⟩

theorem start_of_mem_matchesAt {c : Cursor} {m : Match} (hm : m ∈ p.matchesAt c) :
    m.start = c.position := by
  obtain ⟨d, -, rfl⟩ := mem_results_of_matchesAt hm
  rfl

/-- Each place at which something can be matched is held by a match, unless it is taken up. -/
theorem exists_mem_findFrom {position resume : Nat} {previous : Option Char}
    (hd : d ∈ p.results ⟨position + before.length, before.getLast?.or previous, rest, []⟩)
    (hproper : position + before.length < d.position) :
    position + before.length < resume ∨
      ∃ m ∈ p.findFrom position resume previous (before ++ rest),
        m.start ≤ position + before.length ∧ position + before.length < m.stop := by
  induction before generalizing position resume previous with
  | nil =>
      by_cases hresume : position < resume
      · exact Or.inl hresume
      · right
        obtain ⟨m, hm, hstart, hstop⟩ := exists_mem_matchesAt hd hproper
        refine ⟨m, ?_, Nat.le_of_eq hstart, hstop⟩
        cases rest with
        | nil => rwa [List.append_nil, findFrom, if_neg hresume]
        | cons x rest =>
            rw [List.nil_append, findFrom, if_neg hresume]
            exact List.mem_append_left _ hm
  | cons x before ih =>
      have hplace : position + (x :: before).length = position + 1 + before.length := by
        rw [List.length_cons]
        omega
      rw [hplace, Cursor.previous_cons] at hd
      rw [hplace] at hproper ⊢
      rw [List.cons_append, findFrom]
      split_ifs with hresume
      · exact ih hd hproper
      · right
        have hbehind : position + 1 + before.length <
            ((p.matchesAt ⟨position, previous, x :: (before ++ rest), []⟩).getLast?.map
              (·.stop)).getD position ∨ _ := ih hd hproper
        rcases hbehind with htaken | ⟨m, hm, hholds⟩
        · cases hlast : (p.matchesAt ⟨position, previous, x :: (before ++ rest), []⟩).getLast? with
          | none =>
              rw [hlast] at htaken
              simp only [Option.map_none, Option.getD_none] at htaken
              omega
          | some m =>
              rw [hlast] at htaken
              have hm := List.mem_of_getLast? hlast
              refine ⟨m, List.mem_append_left _ hm, ?_, htaken⟩
              rw [start_of_mem_matchesAt hm]
              change position ≤ position + 1 + before.length
              omega
        · exact ⟨m, List.mem_append_right _ hm, hholds⟩

theorem exists_mem_findAll (hd : d ∈ p.results ⟨before.length, before.getLast?, rest, []⟩)
    (hproper : before.length < d.position) :
    ∃ m ∈ p.findAll (before ++ rest), m.start ≤ before.length ∧ before.length < m.stop := by
  have hholds : 0 + before.length < 0 ∨ ∃ m ∈ p.findFrom 0 0 none (before ++ rest),
      m.start ≤ 0 + before.length ∧ 0 + before.length < m.stop :=
    exists_mem_findFrom (by rwa [Nat.zero_add, Option.or_none]) (by rwa [Nat.zero_add])
  rw [Nat.zero_add] at hholds
  exact hholds.resolve_left (Nat.not_lt_zero _)

theorem searchFrom_isSome_iff {t : Text} {position : Nat} {previous : Option Char} :
    (p.searchFrom position previous t).isSome = true ↔ ∃ before rest d, t = before ++ rest ∧
      d ∈ p.results ⟨position + before.length, before.getLast?.or previous, rest, []⟩ := by
  have hfirst (c : Cursor) : (p.first? c).isSome = true ↔ ∃ d, d ∈ p.results c := by
    rw [first?_eq_head?]
    cases p.results c <;> simp
  induction t generalizing position previous with
  | nil =>
      rw [searchFrom, hfirst]
      refine ⟨fun ⟨d, hd⟩ => ⟨[], [], d, rfl, hd⟩, ?_⟩
      rintro ⟨before, rest, d, hnil, hd⟩
      obtain ⟨rfl, rfl⟩ := List.append_eq_nil_iff.mp hnil.symm
      exact ⟨d, hd⟩
  | cons x t ih =>
      have hlater : (p.searchFrom position previous (x :: t)).isSome = true ↔
          (∃ d, d ∈ p.results ⟨position, previous, x :: t, []⟩) ∨
            (p.searchFrom (position + 1) (some x) t).isSome = true := by
        rw [searchFrom, ← hfirst]
        cases p.first? ⟨position, previous, x :: t, []⟩ <;> simp
      have hcursor (before rest : Text) :
          (⟨position + 1 + before.length, before.getLast?.or (some x), rest, []⟩ : Cursor) =
            ⟨position + (x :: before).length, (x :: before).getLast?.or previous, rest, []⟩ := by
        rw [Cursor.previous_cons, List.length_cons, Nat.add_assoc, Nat.add_comm 1]
      rw [hlater]
      refine (or_congr_right ih).trans ?_
      constructor
      · rintro (⟨d, hd⟩ | ⟨before, rest, d, rfl, hd⟩)
        · exact ⟨[], x :: t, d, rfl, hd⟩
        · exact ⟨x :: before, rest, d, rfl, hcursor before rest ▸ hd⟩
      · rintro ⟨_ | ⟨y, before⟩, rest, d, hsplit, hd⟩
        · rw [List.nil_append] at hsplit
          exact Or.inl ⟨d, hsplit ▸ hd⟩
        · obtain ⟨rfl, rfl⟩ := List.cons.inj hsplit
          exact Or.inr ⟨before, rest, d, rfl, hcursor before rest ▸ hd⟩

theorem occursIn_iff {t : Text} :
    p.occursIn t = true ↔ ∃ before rest d, t = before ++ rest ∧
      d ∈ p.results ⟨before.length, before.getLast?, rest, []⟩ := by
  rw [occursIn, search?, searchFrom_isSome_iff]
  simp only [Nat.zero_add, Option.or_none]

end Search

end Pattern

end LineLint
