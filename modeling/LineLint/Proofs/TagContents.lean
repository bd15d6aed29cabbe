import LineLint.Proofs.PatternPlaces
import LineLint.Proofs.TagSearch
import LineLint.TagChecks

/-!
# Contents of tags

A pattern that asks nothing of what stands around a match finds the same matches in a text wherever
the text stands. What a tag says is therefore told apart from where it stands: its name, its kind,
and its attributes with their values. It depends on the text of the tag only, and an attribute that
is written directly behind the name is the first one of the tag.
-/

namespace LineLint

def Capture.shift (n : Nat) (c : Capture) : Capture := { c with start := n + c.start }

def Match.shift (n : Nat) (m : Match) : Match :=
  ⟨n + m.start, n + m.stop, m.groups.map fun entry => (entry.1, entry.2.shift n)⟩

namespace Cursor

structure Shifts (n : Nat) (c d : Cursor) : Prop where
  position : d.position = n + c.position
  rest : d.rest = c.rest
  groups : d.groups = c.groups.map fun entry => (entry.1, entry.2.shift n)

variable {n : Nat} {c d c' d' : Cursor}

theorem Shifts.record (h : Shifts n c d) (hstart : Shifts n c' d') (name : String) :
    Shifts n (c.record name c') (d.record name d') := by
  refine ⟨h.position, h.rest, ?_⟩
  simp only [Cursor.record, h.groups, hstart.rest, hstart.position, h.position, List.map_cons,
    Capture.shift, Nat.add_sub_add_left]

theorem Shifts.lt_iff (h : Shifts n c d) (h' : Shifts n c' d') :
    d.position < d'.position ↔ c.position < c'.position := by
  rw [h.position, h'.position]
  exact Nat.add_lt_add_iff_left

end Cursor

namespace Match

variable (n : Nat) (m : Match) (name : String)

theorem capture?_shift : (m.shift n).capture? name = (m.capture? name).map (Capture.shift n) := by
  rw [capture?, capture?, shift]
  induction m.groups with
  | nil => rfl
  | cons entry groups ih =>
      rw [List.map_cons, List.lookup_cons, List.lookup_cons, ih]
      by_cases h : name == entry.1 <;> simp [h]

theorem text_shift : (m.shift n).text name = m.text name := by
  rw [text, text, capture?_shift, Option.map_map]
  rfl

end Match

namespace Pattern

open Cursor (Shifts)

variable {β γ : Type} {n : Nat} {c d : Cursor} {p : Pattern}

theorem step?_shift (h : Shifts n c d) (q : Char → Bool) :
    Option.Rel (Shifts n) (c.step? q) (d.step? q) := by
  rw [Cursor.step?, Cursor.step?, h.rest]
  cases c.rest with
  | nil => exact .none
  | cons x rest =>
      by_cases hx : q x = true
      · simp only [hx, if_true]
        exact .some ⟨by rw [h.position, Nat.add_assoc], rfl, h.groups⟩
      · simp only [hx, Bool.false_eq_true, if_false]
        exact .none

theorem firstWith_shift (hp : p.IsFree) (h : Shifts n c d) {g : β → γ} {next : Cursor → Option β}
    {next' : Cursor → Option γ}
    (hnext : ∀ c d, Shifts n c d → next' d = (next c).map g) :
    p.firstWith d next' = (p.firstWith c next).map g := by
  induction p generalizing c d next next' with
  | empty => exact hnext c d h
  | one q =>
      have hstep := step?_shift h q
      rw [firstWith, firstWith]
      generalize c.step? q = e at hstep
      generalize d.step? q = e' at hstep
      cases hstep with
      | none => rfl
      | some hsteps => exact hnext _ _ hsteps
  | seq first second ihf ihs =>
      exact ihf hp.1 h fun _ _ hmiddle => ihs hp.2 hmiddle hnext
  | alt first second ihf ihs =>
      rw [firstWith, firstWith, ihf hp.1 h hnext, ihs hp.2 h hnext]
      cases first.firstWith c next <;> rfl
  | many greedy limit body ih =>
      obtain ⟨rfl, hbody⟩ := hp
      rw [firstWith, firstWith, Option.getD_none, Option.getD_none, h.rest]
      generalize c.rest.length = rounds
      induction rounds generalizing c d with
      | zero => exact hnext c d h
      | succ rounds hrounds =>
          have hfurther : (body.firstWith d fun e =>
              if d.position < e.position then
                repeatedWith greedy (fun d more => body.firstWith d more) next' rounds e
              else none) =
              (body.firstWith c fun e =>
                if c.position < e.position then
                  repeatedWith greedy (fun d more => body.firstWith d more) next rounds e
                else none).map g := by
            refine ih hbody h fun c' d' h' => ?_
            by_cases hproper : c.position < c'.position
            · rw [if_pos hproper, if_pos ((h.lt_iff h').mpr hproper), hrounds h']
            · rw [if_neg hproper, if_neg (mt (h.lt_iff h').mp hproper)]
              rfl
          cases greedy with
          | true =>
              simp only [repeatedWith, if_true, hfurther, hnext c d h]
              cases body.firstWith c _ <;> rfl
          | false =>
              simp only [repeatedWith, Bool.false_eq_true, if_false, hfurther, hnext c d h]
              cases next c <;> rfl
  | group name body ih =>
      exact ih hp h fun _ _ hinner => hnext _ _ (hinner.record h name)
  | again name same => exact hp.elim
  | edge e => exact hp.elim

theorem matchOf_shift {c' d' : Cursor} (h : Shifts n c d) (h' : Shifts n c' d') :
    matchOf d d' = (matchOf c c').shift n := by
  rw [matchOf, matchOf, Match.shift, h.position, h'.position, h'.groups]

theorem matchesAt_shift (hp : p.IsFree) (h : Shifts n c d) :
    p.matchesAt d = (p.matchesAt c).map (Match.shift n) := by
  have hfirst : p.first? d = (p.first? c).map (Match.shift n) :=
    firstWith_shift hp h fun c' d' h' => congrArg some (matchOf_shift h h')
  have hproper : p.firstProper? d = (p.firstProper? c).map (Match.shift n) := by
    refine firstWith_shift hp h fun c' d' h' => ?_
    by_cases hlonger : c.position < c'.position
    · rw [if_pos hlonger, if_pos ((h.lt_iff h').mpr hlonger), matchOf_shift h h']
      rfl
    · rw [if_neg hlonger, if_neg (mt (h.lt_iff h').mp hlonger)]
      rfl
  rw [matchesAt, matchesAt, hfirst]
  cases p.first? c with
  | none => rfl
  | some m =>
      simp only [Option.map_some]
      have hsame : (m.shift n).start < (m.shift n).stop ↔ m.start < m.stop :=
        Nat.add_lt_add_iff_left
      by_cases hm : m.start < m.stop
      · rw [if_pos hm, if_pos (hsame.mpr hm)]
        rfl
      · rw [if_neg hm, if_neg (mt hsame.mp hm), hproper]
        cases p.firstProper? c <;> rfl

theorem findFrom_shift (hp : p.IsFree) (position resume : Nat) (previous previous' : Option Char)
    (t : Text) :
    p.findFrom (n + position) (n + resume) previous' t =
      (p.findFrom position resume previous t).map (Match.shift n) := by
  have hat (position : Nat) (previous previous' : Option Char) (t : Text) :
      p.matchesAt ⟨n + position, previous', t, []⟩ =
        (p.matchesAt ⟨position, previous, t, []⟩).map (Match.shift n) :=
    matchesAt_shift hp ⟨rfl, rfl, rfl⟩
  induction t generalizing position resume previous previous' with
  | nil =>
      rw [findFrom, findFrom, hat position previous previous' []]
      by_cases hresume : position < resume
      · rw [if_pos hresume, if_pos (Nat.add_lt_add_left hresume n)]
        rfl
      · rw [if_neg hresume, if_neg (mt Nat.lt_of_add_lt_add_left hresume)]
  | cons x t ih =>
      rw [findFrom, findFrom, hat position previous previous' (x :: t)]
      by_cases hresume : position < resume
      · rw [if_pos hresume, if_pos (Nat.add_lt_add_left hresume n), Nat.add_assoc]
        exact ih _ _ (some x) (some x)
      · rw [if_neg hresume, if_neg (mt Nat.lt_of_add_lt_add_left hresume), List.map_append,
          Nat.add_assoc]
        simp only [List.getLast?_map]
        rw [← ih _ _ (some x) (some x)]
        cases (p.matchesAt ⟨position, previous, x :: t, []⟩).getLast? <;> rfl

/-- The matches in a text that stands at a position are those in the text alone, shifted. -/
theorem findFrom_eq_map_findAll (hp : p.IsFree) (n : Nat) (previous : Option Char) (t : Text) :
    p.findFrom n n previous t = (p.findAll t).map (Match.shift n) :=
  findFrom_shift hp 0 0 none previous t

end Pattern

/-- What a tag says, wherever it stands. A value has its quotes. -/
structure TagContent where
  name : Text
  isClosing : Bool
  isSelfClosing : Bool
  attributes : List (Text × Option Text)
  deriving DecidableEq

def Attribute.content (a : Attribute) : Text × Option Text := (a.name, a.value.map (·.text))

def Tag.content (t : Tag) : TagContent :=
  ⟨t.name, t.isClosing, t.isSelfClosing, t.attributes.map Attribute.content⟩

namespace Tag

open Identifier (takeWhile_append_of_head)
open Pattern

def attributesOf (body : Text) : List (Text × Option Text) :=
  (attributePattern.findAll body).map fun m =>
    (m.text "name", (m.capture? "value").map (·.text))

theorem content_attributeOf (offset : Nat) (m : Match) :
    (attributeOf offset m).content = (m.text "name", (m.capture? "value").map (·.text)) := by
  rw [attributeOf, Attribute.content, Option.map_map]
  rfl

theorem isFree_attributePattern : attributePattern.IsFree :=
  ⟨⟨trivial, rfl, trivial⟩, ⟨⟨⟨⟨rfl, trivial⟩, trivial⟩, rfl, trivial⟩,
    ⟨⟨⟨trivial, rfl, trivial⟩, trivial⟩, ⟨trivial, rfl, trivial⟩, trivial⟩, trivial, rfl, trivial⟩,
    trivial⟩

variable {c : Cursor} {name rest body : Text}

theorem firstWith_blanks_of_not {β : Type} {next : Cursor → Option β}
    (h : ∀ x ∈ c.rest.head?, isBlank x = false) : blanks.firstWith c next = next c := by
  have hnone : c.rest.takeWhile isBlank = [] := by
    cases hrest : c.rest with
    | nil => rfl
    | cons x rest =>
        rw [hrest] at h
        exact List.takeWhile_cons_of_neg (by rw [h x rfl]; exact Bool.false_ne_true)
  rw [blanks, blank, firstWith_star_one, hnone, Cursor.ahead_nil]
  intro t ht h
  rw [hnone, List.prefix_nil] at ht
  rwa [hnone, ← ht] at h

theorem firstWith_emptyValue {β : Type} (f : Cursor → β) (hname : name ≠ [])
    (hchars : ∀ x ∈ name, isAttributeChar x = true)
    (hrest : c.rest = name ++ ("=\"\"".toList ++ rest)) :
    attributePattern.firstWith c (fun d => some (f d)) =
      some (f (((c.grouped "name" name).ahead ['=']).grouped "value" ['"', '"'])) := by
  let d := c.grouped "name" name
  have hd : d.rest = '=' :: '"' :: '"' :: rest := Cursor.rest_ahead_of_eq hrest
  have he : (d.ahead ['=']).rest = '"' :: ([] ++ '"' :: rest) := Cursor.rest_ahead_of_eq hd
  -- the value
  have hvalue : (opt (blanks ++ char '=' ++ blanks ++ group "value" (quotedValue |||
      plus (one isPlainValueChar)))).firstWith d (fun d => some (f d)) =
        some (f ((d.ahead ['=']).grouped "value" ['"', '"'])) := by
    obtain ⟨q, hq, hquoted⟩ := WrittenTag.firstWith_quotedValue
      (fun e => some (f (e.record "value" (d.ahead ['='])))) rfl he
    have hempty : '"' ∉ ([] : Text) := List.not_mem_nil
    rw [firstWith_opt, firstWith_append, firstWith_append, firstWith_append,
      firstWith_blanks_of_not (by rw [hd]; rintro _ ⟨⟩; rfl), firstWith_char_cons _ hd, if_pos rfl,
      firstWith_blanks_of_not (by rw [he]; rintro _ ⟨⟩; rfl), firstWith_group, firstWith_or,
      hquoted, firstWith_quotedBy_closed hq hempty he]
    rfl
  have hrun : c.rest.takeWhile isAttributeChar = name := by
    rw [hrest]
    exact takeWhile_append_of_head hchars (by rintro _ ⟨⟩; rfl)
  have hhead : c.rest.head?.any isAttributeChar = true := by
    obtain ⟨x, name, rfl⟩ := List.exists_cons_of_ne_nil hname
    rw [hrest]
    exact hchars x List.mem_cons_self
  change ((one isAttributeChar ++ star (one isAttributeChar)).firstWith c fun e => _) = _
  rw [firstWith_run (fun _ h => h), if_pos hhead, hrun]
  · exact hvalue
  · intro t _ hnone
    rw [hrun] at hnone
    exact absurd (hvalue.symm.trans hnone) (Option.some_ne_none _)

theorem matchesAt_blank {x : Char} (hx : isAttributeChar x = false) (hrest : c.rest = x :: rest) :
    attributePattern.matchesAt c = [] := by
  have hnone : attributePattern.first? c = none := by
    change ((one isAttributeChar ++ star (one isAttributeChar)).firstWith c fun e => _) = _
    rw [firstWith_append, firstWith_one_cons _ hrest, if_neg (by rw [hx]; exact Bool.false_ne_true)]
  rw [matchesAt, hnone]

/-- An attribute with an empty value, written directly behind the name, is the first one. -/
theorem attributesOf_emptyAttribute_append (hname : name ≠ [])
    (hchars : ∀ x ∈ name, isAttributeChar x = true) (body : Text) :
    attributesOf (emptyAttribute name ++ body) =
      (name, some "\"\"".toList) :: attributesOf body := by
  let c : Cursor := ⟨1, some ' ', name ++ ("=\"\"".toList ++ body), []⟩
  let d := ((c.grouped "name" name).ahead ['=']).grouped "value" ['"', '"']
  have hmatch : attributePattern.matchesAt c = [matchOf c d] := by
    have hfirst : attributePattern.first? c = some (matchOf c d) :=
      firstWith_emptyValue (matchOf c) hname hchars rfl
    have hproper : (matchOf c d).start < (matchOf c d).stop := by
      simp [matchOf, d, c]
    rw [matchesAt, hfirst]
    exact if_pos hproper
  have hline : emptyAttribute name ++ body = ' ' :: (name ++ "=\"\"".toList ++ body) := by
    simp [emptyAttribute]
  have hfound : attributePattern.findAll (emptyAttribute name ++ body) =
      matchOf c d :: attributePattern.findFrom d.position d.position (some '"') body := by
    have hstop : (matchOf c d).stop = 1 + (name ++ "=\"\"".toList).length := by
      simp [matchOf, d, c]
      omega
    have hquote : (name ++ "=\"\"".toList).getLast?.or (some ' ') = some '"' := by simp
    rw [findAll, hline, findFrom, if_neg (Nat.lt_irrefl _), matchesAt_blank rfl rfl]
    simp only [List.nil_append, List.getLast?_nil, Option.map_none, Option.getD_none]
    rw [findFrom_of_resume_le _ (Nat.zero_le 1), findFrom_of_matchesAt _ (by simp) hstop, hquote]
    · rfl
    · rw [List.append_assoc]
      exact hmatch
  have hname' : (matchOf c d).text "name" = name := by
    simp [Match.text, Match.capture?, matchOf, d, c, List.lookup_cons, Capture.text]
  have hvalue : ((matchOf c d).capture? "value").map (·.text) = some "\"\"".toList := by
    simp [Match.capture?, matchOf, d, c, Capture.text]
  rw [attributesOf, hfound, findFrom_eq_map_findAll isFree_attributePattern, List.map_cons,
    List.map_map, hname', hvalue, attributesOf]
  refine congrArg _ (List.map_congr_left fun m _ => ?_)
  simp only [Function.comp_apply, Match.text_shift, Match.capture?_shift, Option.map_map]
  rfl

theorem attributesOf_flatMap_append {names : List Text}
    (hnames : ∀ name ∈ names, name ≠ [] ∧ ∀ x ∈ name, isAttributeChar x = true) (body : Text) :
    attributesOf (names.flatMap emptyAttribute ++ body) =
      names.map (fun name => (name, some "\"\"".toList)) ++ attributesOf body := by
  induction names with
  | nil => rfl
  | cons name names ih =>
      obtain ⟨⟨hname, hchars⟩, hnames⟩ := List.forall_mem_cons.mp hnames
      rw [List.flatMap_cons, List.append_assoc, attributesOf_emptyAttribute_append hname hchars,
        ih hnames]
      rfl

end Tag

def WrittenTag.content (w : WrittenTag) : TagContent :=
  ⟨w.name, w.isClosing, w.isSelfClosing, Tag.attributesOf w.body⟩

theorem WrittenTag.content_tagAt (position : Nat) (w : WrittenTag) :
    (w.tagAt position).content = w.content := by
  rw [Tag.content, tagAt, List.map_map, content, Tag.attributesOf]
  exact congrArg _ (List.map_congr_left fun m _ => Tag.content_attributeOf _ m)

end LineLint
