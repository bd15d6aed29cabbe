import LineLint.Proofs.SoundMarkup

/-!
# Nested tags

The check of closing tags finds nothing exactly on texts whose tags are well nested: balanced parts,
and between them start tags of elements whose end tag may be left out. What is open after some tags
is told by a stack of names, and the tags themselves by that stack.
-/

namespace LineLint

theorem Rule.exists_run_ofCheck {spec : Spec} {info : RuleInfo} {check : List Text → List Finding}
    (hsound : (ofCheck spec info check).IsSound) (lines : List Text) :
    ∃ ds, (ofCheck spec info check).run lines = .ok ds ∧ (ds = [] ↔ check lines = []) := by
  obtain ⟨ds, hrun⟩ := hsound.runs lines
  refine ⟨ds, hrun, ?_⟩
  simp only [List.eq_nil_iff_forall_not_mem]
  constructor
  · intro hnone f hf
    obtain ⟨d, hd, -⟩ := exists_mem_of_found hrun rfl hf
    exact hnone d hd
  · intro hnone d hd
    obtain ⟨f, hf, -⟩ := (mem_iff_of_run_ofCheck hrun).mp hd
    exact hnone f hf

namespace TagNesting

inductive Mark where
  | opens (name : Text)
  | closes (name : Text)

def markOf? (t : Tag) : Option Mark :=
  if voidTags.contains t.lowerName || t.isSelfClosing then none
  else if t.isClosing then some (.closes t.lowerName)
  else some (.opens t.lowerName)

/-- The marks of a text in reading order, comments left out. -/
def marks (lines : List Text) : List Mark :=
  ((MarkupComment.blank lines).flatMap Tag.all).filterMap markOf?

inductive Balanced : List Mark → Prop
  | nil : Balanced []
  | append {s t : List Mark} (hs : Balanced s) (ht : Balanced t) : Balanced (s ++ t)
  | element {s : List Mark} (name : Text) (hs : Balanced s) :
      Balanced (.opens name :: s ++ [.closes name])

/-- Balanced marks, with start tags between them whose end tag may be left out. -/
def IsWellNested (s : List Mark) : Prop :=
  ∃ (first : List Mark) (opened : List (Text × List Mark)),
    s = first ++ opened.flatMap (fun (name, inner) => .opens name :: inner) ∧ Balanced first ∧
      ∀ part ∈ opened, part.1 ∈ optionalClose ∧ Balanced part.2

/-- The names that are open behind some marks, the innermost first, unless one of the marks closes
another element than the innermost. -/
def openAfter : List Text → List Mark → Option (List Text)
  | names, [] => some names
  | names, .opens name :: rest => openAfter (name :: names) rest
  | [], .closes _ :: _ => none
  | innermost :: outer, .closes name :: rest =>
      if innermost = name then openAfter outer rest else none

/-- Marks that leave some elements open, the innermost first, each with balanced marks behind its
start tag. -/
inductive LeavesOpen : List Text → List Mark → Prop
  | balanced {s : List Mark} (hs : Balanced s) : LeavesOpen [] s
  | opened {outer : List Text} {s t : List Mark} (name : Text) (hs : LeavesOpen outer s)
      (ht : Balanced t) : LeavesOpen (name :: outer) (s ++ .opens name :: t)

variable {names left : List Text} {s t : List Mark}

theorem Balanced.openAfter_append (h : Balanced s) (names : List Text) (rest : List Mark) :
    openAfter names (s ++ rest) = openAfter names rest := by
  induction h generalizing names rest with
  | nil => rfl
  | append _ _ ihs iht => rw [List.append_assoc, ihs, iht]
  | element name _ ih =>
      rw [List.cons_append, List.cons_append, openAfter, List.append_assoc, ih,
        List.singleton_append, openAfter, if_pos rfl]

theorem LeavesOpen.openAfter_append (h : LeavesOpen left s) (names : List Text)
    (rest : List Mark) : openAfter names (s ++ rest) = openAfter (left ++ names) rest := by
  induction h generalizing names rest with
  | balanced hs => exact hs.openAfter_append names rest
  | opened name _ ht ih =>
      rw [List.append_assoc, ih, List.cons_append, openAfter, ht.openAfter_append]
      rfl

/-- Balanced marks close all that they open, so that they may follow any others. -/
theorem LeavesOpen.append_balanced (h : LeavesOpen left s) (ht : Balanced t) :
    LeavesOpen left (s ++ t) := by
  cases h with
  | balanced hs => exact .balanced (hs.append ht)
  | opened name hs hinner =>
      rw [List.append_assoc, List.cons_append]
      exact .opened name hs (hinner.append ht)

theorem LeavesOpen.append_opens (h : LeavesOpen left s) (name : Text) :
    LeavesOpen (name :: left) (s ++ [.opens name]) :=
  .opened name h .nil

theorem LeavesOpen.append_closes {name : Text} (h : LeavesOpen (name :: left) s) :
    LeavesOpen left (s ++ [.closes name]) := by
  cases h with
  | opened _ hs hinner =>
      rw [List.append_assoc]
      exact hs.append_balanced (.element name hinner)

/-- The marks that were read and those that are still to come leave open what the stack holds. -/
theorem LeavesOpen.append_of_openAfter (h : LeavesOpen names s) {rest : List Mark}
    (hrest : openAfter names rest = some left) : LeavesOpen left (s ++ rest) := by
  induction rest generalizing names s with
  | nil =>
      obtain rfl := Option.some.inj hrest
      rwa [List.append_nil]
  | cons mark rest ih =>
      rw [List.append_cons]
      cases mark with
      | opens name => exact ih (h.append_opens name) hrest
      | closes name =>
          cases names with
          | nil => cases hrest
          | cons innermost outer =>
              rw [openAfter] at hrest
              split_ifs at hrest with hname
              subst hname
              exact ih h.append_closes hrest

theorem openAfter_nil_eq_some_iff : openAfter [] s = some left ↔ LeavesOpen left s := by
  constructor
  · exact fun h => (LeavesOpen.balanced .nil).append_of_openAfter h
  · intro h
    have hrun := h.openAfter_append [] []
    rwa [List.append_nil, List.append_nil] at hrun

theorem isWellNested_of_leavesOpen (h : LeavesOpen left s)
    (hleft : ∀ name ∈ left, name ∈ optionalClose) : IsWellNested s := by
  induction h with
  | balanced hs => exact ⟨_, [], (List.append_nil _).symm, hs, List.forall_mem_nil _⟩
  | @opened outer s t name _ ht ih =>
      obtain ⟨hname, houter⟩ := List.forall_mem_cons.mp hleft
      obtain ⟨first, opened, rfl, hfirst, hopened⟩ := ih houter
      refine ⟨first, opened ++ [(name, t)], by simp, hfirst, ?_⟩
      exact List.forall_mem_append.mpr ⟨hopened, List.forall_mem_singleton.mpr ⟨hname, ht⟩⟩

theorem LeavesOpen.append_opened (h : LeavesOpen left s) {opened : List (Text × List Mark)}
    (hopened : ∀ part ∈ opened, Balanced part.2) :
    LeavesOpen ((opened.map (·.1)).reverse ++ left)
      (s ++ opened.flatMap fun (name, inner) => .opens name :: inner) := by
  induction opened generalizing left s with
  | nil => simpa using h
  | cons part opened ih =>
      obtain ⟨name, inner⟩ := part
      obtain ⟨hinner, hopened⟩ := List.forall_mem_cons.mp hopened
      have hrest := ih (.opened name h hinner) hopened
      simpa using hrest

theorem isWellNested_iff : IsWellNested s ↔
    ∃ left, openAfter [] s = some left ∧ ∀ name ∈ left, name ∈ optionalClose := by
  simp only [openAfter_nil_eq_some_iff]
  constructor
  · rintro ⟨first, opened, rfl, hfirst, hopened⟩
    refine ⟨_, (LeavesOpen.balanced hfirst).append_opened fun part hpart => (hopened part hpart).2,
      fun name hname => ?_⟩
    rw [List.append_nil, List.mem_reverse, List.mem_map] at hname
    obtain ⟨part, hpart, rfl⟩ := hname
    exact (hopened part hpart).1
  · rintro ⟨left, hleaves, hleft⟩
    exact isWellNested_of_leavesOpen hleaves hleft

section Pair

def Event.mark (e : Event) : Mark := if e.isClosing then .closes e.name else .opens e.name

theorem map_mark_events (lines : List Text) : (events lines).map Event.mark = marks lines := by
  have hline (index : Nat) (ts : List Tag) :
      (ts.filterMap (eventOf? index)).map Event.mark = ts.filterMap markOf? := by
    rw [List.map_filterMap]
    refine List.filterMap_congr fun t _ => ?_
    unfold eventOf? markOf?
    split_ifs <;> simp_all [Event.mark]
  have hfrom (blanked : List Text) (start : Nat) :
      ((blanked.zipIdx start).flatMap fun entry =>
        (Tag.all entry.1).filterMap (eventOf? entry.2)).map Event.mark =
          (blanked.flatMap Tag.all).filterMap markOf? := by
    induction blanked generalizing start with
    | nil => rfl
    | cons line blanked ih =>
        rw [List.zipIdx_cons, List.flatMap_cons, List.map_append, ih, hline, List.flatMap_cons,
          List.filterMap_append]
  exact hfrom _ 0

theorem unclosed_eq_nil_iff {stack : List Element} :
    unclosed stack = [] ↔ ∀ name ∈ stack.map (·.name), name ∈ optionalClose := by
  simp [unclosed, List.filter_eq_nil_iff]

/-- An end tag is paired with the innermost open element, or something is found. -/
theorem pair_closing_eq_nil_iff {stack : List Element} {e : Event} {rest : List Event}
    (hclosing : e.isClosing = true) :
    pair stack (e :: rest) = [] ↔
      ∃ innermost outer, stack = innermost :: outer ∧ innermost.name = e.name ∧
        pair outer rest = [] := by
  rw [pair, if_neg (by simp [hclosing])]
  cases stack with
  | nil => simp [findOpen]
  | cons innermost outer =>
      by_cases hname : innermost.name = e.name
      · have hopen : findOpen e.name (innermost :: outer) = innermost :: outer := by
          simp [findOpen, hname]
        simp [hopen, hname]
      · have hopen : findOpen e.name (innermost :: outer) = findOpen e.name outer := by
          simp [findOpen, hname]
        have hshort : (findOpen e.name outer).length ≤ outer.length :=
          (List.dropWhile_suffix _).length_le
        rw [hopen]
        split
        · simp [hname]
        · rename_i opened others hfound
          rw [hfound, List.length_cons] at hshort
          have hdeep : others.length ≠ outer.length := by omega
          simp [hdeep, hname]

theorem pair_eq_nil_iff {stack : List Element} {es : List Event} :
    pair stack es = [] ↔
      ∃ left, openAfter (stack.map (·.name)) (es.map Event.mark) = some left ∧
        ∀ name ∈ left, name ∈ optionalClose := by
  induction es generalizing stack with
  | nil =>
      rw [pair, unclosed_eq_nil_iff]
      simp [openAfter]
  | cons e rest ih =>
      rw [List.map_cons]
      cases hclosing : e.isClosing with
      | false =>
          rw [pair, if_pos (by simp [hclosing]), ih, Event.mark, if_neg (by simp [hclosing])]
          rfl
      | true =>
          rw [pair_closing_eq_nil_iff hclosing, Event.mark, if_pos hclosing]
          cases stack with
          | nil => simp [openAfter]
          | cons innermost outer =>
              by_cases hname : innermost.name = e.name
              · simp [openAfter, hname, ih]
              · simp [openAfter, hname]

end Pair

/-- The rule reports nothing exactly if the tags of the text are well nested. -/
theorem run_rule_eq_nil_iff_isWellNested (lines : List Text) :
    ∃ ds, rule.run lines = .ok ds ∧ (ds = [] ↔ IsWellNested (marks lines)) := by
  obtain ⟨ds, hrun, hnil⟩ := Rule.exists_run_ofCheck isSound lines
  refine ⟨ds, hrun, hnil.trans ?_⟩
  rw [isWellNested_iff, ← map_mark_events]
  exact pair_eq_nil_iff

end TagNesting

end LineLint
