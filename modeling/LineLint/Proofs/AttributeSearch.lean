import LineLint.Proofs.LoweredText
import LineLint.Proofs.TagContents

/-!
# The search for attributes

An attribute is matched by its longest name, and by a value behind it if one can be read. What a
value leaves to the next name starts with a backtick, if it has no quotes. So what stands before a
name ends in a blank or a sign of markup, or in a run of characters behind one that the name does
not start with, in capitals or not.
-/

namespace LineLint

namespace Tag

open Pattern
open Identifier (takeWhile_append_of_head)
open WrittenTag (isNameChar isQuote firstWith_quotedValue firstWith_quotedValue_of_not)

variable {β : Type} {c d : Cursor} {next : Cursor → Option β} {before rest name front back : Text}
  {x first : Char} {spots spots' : List (Text × Nat)}

/-- The text may be followed by a name that starts with the given character. -/
def Bounds (before : Text) (first : Char) : Prop :=
  ∃ front sign run, before = front ++ sign :: run ∧ isAttributeChar sign = false ∧
    (run ≠ [] → isWordChar first = false) ∧
    ∀ c ∈ run, isBlank c = false ∧ c ≠ first ∧ c ≠ lowerChar first

theorem bounds_snoc (hx : isAttributeChar x = false) (front : Text) (first : Char) :
    Bounds (front ++ [x]) first :=
  ⟨front, x, [], rfl, hx, fun h => absurd rfl h, List.forall_mem_nil _⟩

theorem Bounds.append_left (h : Bounds before first) (front : Text) :
    Bounds (front ++ before) first := by
  obtain ⟨more, sign, run, rfl, hrun⟩ := h
  exact ⟨front ++ more, sign, run, (List.append_assoc _ _ _).symm, hrun⟩

section Values

def plainOrQuoted : Pattern := group "value" (quotedValue ||| plus (one isPlainValueChar))

def valuePattern : Pattern :=
  blanks ++ char '=' ++ blanks ++ plainOrQuoted

theorem firstWith_blanks (hnext : ∀ e x rest, e.rest = x :: rest → isBlank x = true → next e = none)
    (c : Cursor) : blanks.firstWith c next = next (c.ahead (c.rest.takeWhile isBlank)) := by
  refine firstWith_star_one fun t ht hnone => ?_
  obtain ⟨more, hmore⟩ := ht
  cases more with
  | nil =>
      rw [List.append_nil] at hmore
      rwa [hmore]
  | cons y more =>
      have hy : isBlank y = true := List.mem_takeWhile_imp (l := c.rest) (hmore ▸ by simp)
      refine hnext _ y (more ++ c.rest.dropWhile isBlank) (Cursor.rest_ahead_of_eq ?_) hy
      rw [← List.cons_append, ← List.append_assoc, hmore, List.takeWhile_append_dropWhile]

theorem isQuote_of_isBlank (hx : isBlank x = true) : isQuote x = false := by
  refine Bool.eq_false_iff.mpr fun h => ?_
  rw [isQuote, Bool.or_eq_true, beq_iff_eq, beq_iff_eq] at h
  rcases h with rfl | rfl <;> cases hx

theorem not_of_isQuote (hx : isQuote x = true) :
    isPlainValueChar x = false ∧ isAttributeChar x = false := by
  rw [isQuote, Bool.or_eq_true, beq_iff_eq, beq_iff_eq] at hx
  rcases hx with rfl | rfl <;> exact ⟨rfl, rfl⟩

theorem firstWith_plus_of_not (hrest : ∀ x ∈ c.rest.head?, isPlainValueChar x = false) :
    (plus (one isPlainValueChar)).firstWith c next = none := by
  cases hc : c.rest with
  | nil => exact firstWith_one_nil _ hc
  | cons x rest =>
      have hx : isPlainValueChar x = false := hrest x (by rw [hc]; rfl)
      exact (firstWith_one_cons _ hc).trans (if_neg (by rw [hx]; exact Bool.false_ne_true))

theorem firstWith_plainOrQuoted_of_not (hquote : ∀ x ∈ c.rest.head?, isQuote x = false)
    (hplain : ∀ x ∈ c.rest.head?, isPlainValueChar x = false) :
    plainOrQuoted.firstWith c next = none := by
  rw [plainOrQuoted, firstWith_group, firstWith_or, firstWith_quotedValue_of_not hquote,
    firstWith_plus_of_not hplain]
  rfl

/-- Only a backtick ends a value without quotes and starts a name. -/
theorem bounds_of_plain {gap value : Text} {sign : Char} (hsign : isAttributeChar sign = false)
    (hvalue : ∀ c ∈ value, isPlainValueChar c = true) (hx : isAttributeChar x = true)
    (hstop : isPlainValueChar x = false) : Bounds (gap ++ [sign] ++ value) x := by
  have hbacktick : x = '`' := by
    simp only [isAttributeChar, isPlainValueChar, Bool.and_eq_true, Bool.not_eq_true',
      Bool.and_eq_false_iff, Bool.not_eq_false', List.contains_eq_mem, decide_eq_false_iff_not,
      decide_eq_true_eq, List.mem_cons, List.not_mem_nil, or_false, not_or] at hx hstop
    grind
  subst hbacktick
  refine ⟨gap, sign, value, by simp, hsign, fun _ => by decide, fun c hc => ?_⟩
  have hplain := hvalue c hc
  have hne : c ≠ '`' := by
    rintro rfl
    cases hplain
  have hlower : lowerChar '`' = '`' := by decide
  rw [isPlainValueChar, Bool.and_eq_true, Bool.not_eq_true'] at hplain
  exact ⟨hplain.1, hne, hlower.symm ▸ hne⟩

theorem firstWith_plainOrQuoted_closed (f : Cursor → β) {t : Text} (hx : isQuote x = true)
    (ht : x ∉ t) (hrest : c.rest = x :: (t ++ x :: rest)) :
    plainOrQuoted.firstWith c (fun e => some (f e)) =
      some (f (c.grouped "value" (x :: (t ++ [x])))) := by
  obtain ⟨q, hq, hquoted⟩ :=
    firstWith_quotedValue (fun e => some (f (e.record "value" c))) hx hrest
  rw [plainOrQuoted, firstWith_group, firstWith_or, hquoted, firstWith_quotedBy_closed hq ht hrest]
  rfl

theorem firstWith_plainOrQuoted_open (f : Cursor → β) (hx : isQuote x = true) (hopen : x ∉ rest)
    (hrest : c.rest = x :: rest) : plainOrQuoted.firstWith c (fun e => some (f e)) = none := by
  obtain ⟨q, hq, hquoted⟩ :=
    firstWith_quotedValue (fun e => some (f (e.record "value" c))) hx hrest
  rw [plainOrQuoted, firstWith_group, firstWith_or, hquoted, firstWith_quotedBy_open hq hopen hrest,
    Option.none_or]
  refine firstWith_plus_of_not ?_
  rw [hrest]
  rintro _ ⟨⟩
  exact (not_of_isQuote hx).1

theorem firstWith_plainOrQuoted_plain (f : Cursor → β) (hx : isQuote x = false)
    (hplain : isPlainValueChar x = true) (hrest : c.rest = x :: rest) :
    plainOrQuoted.firstWith c (fun e => some (f e)) =
      some (f (c.grouped "value" (c.rest.takeWhile isPlainValueChar))) := by
  have hquote : ∀ y ∈ c.rest.head?, isQuote y = false := by
    rw [hrest]
    rintro _ ⟨⟩
    exact hx
  rw [plainOrQuoted, firstWith_group, firstWith_or, firstWith_quotedValue_of_not hquote,
    Option.none_or]
  refine (firstWith_run (fun _ h => h) fun t _ hnone => ?_).trans (if_pos ?_)
  · cases hnone
  · rw [hrest]
    exact hplain

/-- A value is taken up as a whole, and what stands behind it and starts a name is bounded by it. -/
theorem firstWith_plainOrQuoted (f : Cursor → β) (gap : Text) {sign : Char}
    (hsign : isAttributeChar sign = false) :
    plainOrQuoted.firstWith c (fun e => some (f e)) = none ∨
      ∃ value rest, c.rest = value ++ rest ∧
        plainOrQuoted.firstWith c (fun e => some (f e)) = some (f (c.grouped "value" value)) ∧
        ∀ x ∈ rest.head?, isAttributeChar x = true → Bounds (gap ++ [sign] ++ value) x := by
  cases hrest : c.rest with
  | nil =>
      refine Or.inl (firstWith_plainOrQuoted_of_not ?_ ?_)
      all_goals
        rw [hrest]
        rintro _ ⟨⟩
  | cons x rest =>
      by_cases hquote : isQuote x = true
      · by_cases hclosed : x ∈ rest
        · obtain ⟨t, rest, rfl, ht⟩ := List.eq_append_cons_of_mem hclosed
          refine Or.inr ⟨x :: (t ++ [x]), rest, by simp,
            firstWith_plainOrQuoted_closed f hquote ht hrest, fun y _ _ => ?_⟩
          have hsplit : gap ++ [sign] ++ x :: (t ++ [x]) = (gap ++ [sign] ++ x :: t) ++ [x] := by
            simp
          rw [hsplit]
          exact bounds_snoc (not_of_isQuote hquote).2 _ y
        · exact Or.inl (firstWith_plainOrQuoted_open f hquote hclosed hrest)
      · rw [Bool.not_eq_true] at hquote
        by_cases hplain : isPlainValueChar x = true
        · refine Or.inr ⟨c.rest.takeWhile isPlainValueChar, c.rest.dropWhile isPlainValueChar,
            ?_, firstWith_plainOrQuoted_plain f hquote hplain hrest, fun y hy hname => ?_⟩
          · rw [← hrest, List.takeWhile_append_dropWhile]
          · have hstop := List.head?_dropWhile_not isPlainValueChar c.rest
            rw [Option.mem_def.mp hy] at hstop
            exact bounds_of_plain hsign (fun z hz => List.mem_takeWhile_imp hz) hname
              (by simpa using hstop)
        · rw [Bool.not_eq_true] at hplain
          refine Or.inl (firstWith_plainOrQuoted_of_not ?_ ?_)
          all_goals
            rw [hrest]
            rintro _ ⟨⟩
          · exact hquote
          · exact hplain

theorem isAttributeChar_of_isBlank (hx : isBlank x = true) : isAttributeChar x = false := by
  simp [isAttributeChar, hx]

theorem firstWith_valuePattern_eq (f : Cursor → β) (c : Cursor) :
    valuePattern.firstWith c (fun e => some (f e)) =
      (char '=').firstWith (c.ahead (c.rest.takeWhile isBlank)) fun e =>
        plainOrQuoted.firstWith (e.ahead (e.rest.takeWhile isBlank)) fun e => some (f e) := by
  have hvalue (e : Cursor) (x : Char) (rest : Text) (hrest : e.rest = x :: rest)
      (hx : isBlank x = true) : plainOrQuoted.firstWith e (fun e => some (f e)) = none := by
    refine firstWith_plainOrQuoted_of_not ?_ ?_
    all_goals
      rw [hrest]
      rintro _ ⟨⟩
    · exact isQuote_of_isBlank hx
    · simp [isPlainValueChar, hx]
  have hsign (e : Cursor) (x : Char) (rest : Text) (hrest : e.rest = x :: rest)
      (hx : isBlank x = true) : (char '=').firstWith e (fun e => blanks.firstWith e fun e =>
        plainOrQuoted.firstWith e fun e => some (f e)) = none := by
    refine firstWith_char_of_ne _ ?_
    rw [hrest]
    rintro ⟨⟩
    cases hx
  refine (firstWith_blanks hsign c).trans ?_
  congr 1
  funext e
  exact firstWith_blanks hvalue e

/-- The sign before a value is the last blank before it, or the equals sign. -/
theorem exists_sign_before_value (front rest : Text) :
    ∃ gap sign, front ++ ['='] ++ rest.takeWhile isBlank = gap ++ [sign] ∧
      isAttributeChar sign = false := by
  rcases List.eq_nil_or_concat (rest.takeWhile isBlank) with hnil | ⟨more, last, hmore⟩
  · exact ⟨front, '=', by rw [hnil, List.append_nil], rfl⟩
  · rw [List.concat_eq_append] at hmore
    have hlast : last ∈ rest.takeWhile isBlank := hmore ▸ by simp
    exact ⟨front ++ ['='] ++ more, last, by rw [hmore, ← List.append_assoc],
      isAttributeChar_of_isBlank (List.mem_takeWhile_imp hlast)⟩

/-- What starts a name behind a value is bounded by it and the sign before it. -/
theorem firstWith_valuePattern (f : Cursor → β) (c : Cursor) :
    valuePattern.firstWith c (fun e => some (f e)) = none ∨
      ∃ gap value rest, c.rest = gap ++ (value ++ rest) ∧
        valuePattern.firstWith c (fun e => some (f e)) =
          some (f ((c.ahead gap).grouped "value" value)) ∧
        ∀ x ∈ rest.head?, isAttributeChar x = true → Bounds (gap ++ value) x := by
  let b := c.rest.takeWhile isBlank
  have hb : c.rest = b ++ c.rest.dropWhile isBlank := List.takeWhile_append_dropWhile.symm
  rw [firstWith_valuePattern_eq]
  cases hbehind : c.rest.dropWhile isBlank with
  | nil =>
      refine Or.inl (firstWith_char_nil _ ?_)
      rw [Cursor.rest_ahead_of_eq hb, hbehind]
  | cons x rest =>
      have hx : (c.ahead b).rest = x :: rest := by rw [Cursor.rest_ahead_of_eq hb, hbehind]
      rw [firstWith_char_cons _ hx]
      split_ifs with hequals
      · subst hequals
        have hrest : ((c.ahead b).ahead ['=']).rest = rest := Cursor.rest_ahead_of_eq hx
        obtain ⟨gap, sign, hgap, hsign⟩ := exists_sign_before_value b rest
        rw [hrest, Cursor.ahead_ahead, Cursor.ahead_ahead, ← List.append_assoc, hgap]
        refine (firstWith_plainOrQuoted f gap hsign).imp_right ?_
        rintro ⟨value, rest', hrest', hfirst, hbounds⟩
        refine ⟨gap ++ [sign], value, rest', ?_, hfirst, hbounds⟩
        have hall : c.rest = gap ++ [sign] ++ rest.dropWhile isBlank := by
          rw [← hgap, List.append_assoc, List.takeWhile_append_dropWhile, List.append_assoc, hb,
            hbehind]
          rfl
        rw [← hrest', Cursor.rest_ahead_of_eq hall]
        exact hall
      · exact Or.inl rfl

theorem exists_first?_attributePattern (hname : name ≠ [])
    (hchars : ∀ x ∈ name, isAttributeChar x = true) (hrest : c.rest = name ++ rest)
    (hstop : ∀ x ∈ rest.head?, isAttributeChar x = false) :
    ∃ tail rest' e, rest = tail ++ rest' ∧ attributePattern.first? c = some (matchOf c e) ∧
      e.position = c.position + (name ++ tail).length ∧
      e.groups.lookup "name" = some ⟨c.position, c.rest, name.length⟩ ∧
      ∀ x ∈ rest'.head?, isAttributeChar x = true → Bounds tail x := by
  let d := c.grouped "name" name
  have hd : d.rest = rest := Cursor.rest_ahead_of_eq hrest
  have hrun : c.rest.takeWhile isAttributeChar = name := by
    rw [hrest]
    exact takeWhile_append_of_head hchars hstop
  have hhead : c.rest.head?.any isAttributeChar = true := by
    obtain ⟨x, name, rfl⟩ := List.exists_cons_of_ne_nil hname
    rw [hrest]
    exact hchars x List.mem_cons_self
  have hfirst (e : Cursor)
      (h : (opt valuePattern).firstWith d (fun e => some (matchOf c e)) = some (matchOf c e)) :
      attributePattern.first? c = some (matchOf c e) := by
    change ((one isAttributeChar ++ star (one isAttributeChar)).firstWith c fun e =>
      (opt valuePattern).firstWith (e.record "name" c) fun e => some (matchOf c e)) = _
    rw [firstWith_run (fun _ h => h), if_pos hhead, hrun]
    · exact h
    · intro t _ hnone
      rw [hrun] at hnone
      exact absurd (h.symm.trans hnone) (Option.some_ne_none _)
  rcases firstWith_valuePattern (matchOf c) d with
    hnone | ⟨gap, value, rest', hsplit, hvalue, hbounds⟩
  · refine ⟨[], rest, d, rfl, hfirst d ?_, ?_, ?_, ?_⟩
    · rw [firstWith_opt, hnone, Option.none_or]
    · rw [List.append_nil]
      rfl
    · simp [d]
    · intro x hx hname
      rw [hstop x hx] at hname
      cases hname
  · refine ⟨gap ++ value, rest', (d.ahead gap).grouped "value" value, ?_, hfirst _ ?_, ?_, ?_,
      hbounds⟩
    · rw [← hd, hsplit, List.append_assoc]
    · rw [firstWith_opt, hvalue, Option.some_or]
    · simp [d, Nat.add_assoc]
    · simp [d, List.lookup_cons]

end Values

end Tag

end LineLint
