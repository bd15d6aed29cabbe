import LineLint.Proofs.DirectMatching
import LineLint.Proofs.WrittenTags

/-!
# The search for tags

The pattern of a tag leaves many ways to go back, but none helps: a name that stops earlier leaves
its other characters to the attributes, and a quote that opens there is passed over only with its
value. So the search finds the tags that are read in one pass, and a line is a row of tags and of
characters at which no tag starts.
-/

namespace LineLint

namespace WrittenTag

variable {β : Type} {c : Cursor} {next : Cursor → Option β} {t rest : Text} {quote : Char}

open Pattern

theorem quotedValue_eq : Tag.quotedValue =
    (quotedBy '"' fun c => !"\"".toList.contains c) |||
      (quotedBy '\'' fun c => !"'".toList.contains c) :=
  rfl

theorem firstWith_quotedValue_of_not (h : ∀ x ∈ c.rest.head?, isQuote x = false) :
    Tag.quotedValue.firstWith c next = none := by
  have hne (quote : Char) (hquote : isQuote quote = true) : c.rest.head? ≠ some quote :=
    fun hhead => absurd (h quote hhead) (by simp [hquote])
  rw [quotedValue_eq, firstWith_or, firstWith_quotedBy_of_ne _ (hne _ rfl),
    firstWith_quotedBy_of_ne _ (hne _ rfl)]
  rfl

theorem firstWith_quotedValue (next : Cursor → Option β) (hquote : isQuote quote = true)
    (hrest : c.rest = quote :: rest) :
    ∃ q : Char → Bool, (∀ x, q x = true ↔ x ≠ quote) ∧
      Tag.quotedValue.firstWith c next = (quotedBy quote q).firstWith c next := by
  have hhead (other : Char) (hne : quote ≠ other) : c.rest.head? ≠ some other := by
    rw [hrest]
    exact fun h => hne (Option.some.inj h)
  rw [isQuote, Bool.or_eq_true, beq_iff_eq, beq_iff_eq] at hquote
  rcases hquote with rfl | rfl
  · refine ⟨fun c => !"\"".toList.contains c, fun x => by simp, ?_⟩
    rw [quotedValue_eq, firstWith_or,
      firstWith_quotedBy_of_ne _ (hhead '\'' (by decide)), Option.or_none]
  · refine ⟨fun c => !"'".toList.contains c, fun x => by simp, ?_⟩
    rw [quotedValue_eq, firstWith_or,
      firstWith_quotedBy_of_ne _ (hhead '"' (by decide)), Option.none_or]

def bodyPart : Pattern := .noneOf ">\"'" ||| Tag.quotedValue

theorem isPlain_iff {x : Char} :
    (!">\"'".toList.contains x) = true ↔ x ≠ '>' ∧ isQuote x = false := by
  simp [isQuote]

theorem firstWith_bodyPart_of_plain {x : Char} (hrest : c.rest = x :: rest) (hend : x ≠ '>')
    (hquote : isQuote x = false) : bodyPart.firstWith c next = next (c.ahead [x]) := by
  have hnone : Tag.quotedValue.firstWith c next = none :=
    firstWith_quotedValue_of_not (by rw [hrest]; rintro _ ⟨⟩; exact hquote)
  rw [bodyPart, firstWith_or, hnone, Option.or_none, noneOf, firstWith_one_cons _ hrest,
    if_pos (isPlain_iff.mpr ⟨hend, hquote⟩)]

theorem firstWith_bodyPart_nil (hrest : c.rest = []) : bodyPart.firstWith c next = none := by
  have hnone : Tag.quotedValue.firstWith c next = none :=
    firstWith_quotedValue_of_not (by rw [hrest]; rintro _ ⟨⟩)
  rw [bodyPart, firstWith_or, hnone, Option.or_none, noneOf, firstWith_one_nil _ hrest]

theorem firstWith_bodyPart_of_quote (hquote : isQuote quote = true)
    (hrest : c.rest = quote :: rest) :
    bodyPart.firstWith c next = Tag.quotedValue.firstWith c next := by
  rw [bodyPart, firstWith_or, noneOf, firstWith_one_cons _ hrest, if_neg, Option.none_or]
  intro hplain
  exact Bool.false_ne_true ((isPlain_iff.mp hplain).2.symm.trans hquote)

/-- Where the tag does not end, a part is passed over, and the rest is read behind it. -/
theorem firstWith_bodyPart {G : Text → Bool → β} (hend : tagEnd? none c.rest = none)
    (hpart : ∀ part rest, part ≠ [] → c.rest = part ++ rest →
      next (c.ahead part) = (scan? none rest).map fun found => G (part ++ found.1) found.2) :
    bodyPart.firstWith c next = (scan? none c.rest).map fun found => G found.1 found.2 := by
  cases hrest : c.rest with
  | nil => exact firstWith_bodyPart_nil hrest
  | cons x rest =>
      rw [hrest] at hend
      rw [scan?_cons_of_none hend, Option.map_map]
      cases hquote : isQuote x with
      | false =>
          have hne : x ≠ '>' := by rintro rfl; simp [tagEnd?] at hend
          rw [quoteAfter, if_neg (by rw [hquote]; exact Bool.false_ne_true)]
          exact (firstWith_bodyPart_of_plain hrest hne hquote).trans
            (hpart [x] rest (List.cons_ne_nil x []) hrest)
      | true =>
          rw [quoteAfter, if_pos hquote, firstWith_bodyPart_of_quote hquote hrest]
          obtain ⟨q, hq, hquoted⟩ := firstWith_quotedValue next hquote hrest
          rw [hquoted]
          by_cases hclosed : x ∈ rest
          · obtain ⟨t, more, rfl, ht⟩ := List.eq_append_cons_of_mem hclosed
            have hwhole : c.rest = x :: (t ++ [x]) ++ more := by simpa using hrest
            rw [firstWith_quotedBy_closed hq ht hrest, hpart _ _ (List.cons_ne_nil _ _) hwhole,
              scan?_quoted ht, Option.map_map]
            simp [Function.comp_def]
          · rw [firstWith_quotedBy_open hq hclosed hrest, scan?_open hclosed]
            rfl

theorem firstWith_body {F : Cursor → Bool → β}
    (hnext : ∀ d, next d = (tagEnd? none d.rest).map (F d)) (c : Cursor) :
    (lazyStar bodyPart).firstWith c next =
      (scan? none c.rest).map fun found => F (c.ahead found.1) found.2 := by
  suffices hrounds : ∀ rounds, c.rest.length ≤ rounds →
      repeatedWith false (fun d more => bodyPart.firstWith d more) next rounds c =
        (scan? none c.rest).map fun found => F (c.ahead found.1) found.2 from
    hrounds _ (Nat.le_refl _)
  intro rounds
  induction rounds generalizing c with
  | zero =>
      intro hlength
      rw [repeatedWith, hnext, List.eq_nil_of_length_eq_zero (Nat.le_zero.mp hlength)]
      rfl
  | succ rounds ih =>
      intro hlength
      rw [repeatedWith_lazy_succ, hnext]
      cases hend : tagEnd? none c.rest with
      | some e => rw [scan?_of_end hend]; rfl
      | none =>
          rw [Option.map_none, Option.none_or]
          refine firstWith_bodyPart (G := fun body e => F (c.ahead body) e) hend ?_
          intro part rest hne hrest
          have hlonger := List.length_pos_of_ne_nil hne
          have hproper : c.position < (c.ahead part).position := Nat.lt_add_of_pos_right hlonger
          have hrest' : (c.ahead part).rest = rest := Cursor.rest_ahead_of_eq hrest
          have hshort : (c.ahead part).rest.length ≤ rounds := by
            rw [hrest, List.length_append] at hlength
            rw [hrest']
            omega
          simp only [if_pos hproper, ih _ hshort, hrest', Cursor.ahead_ahead]

theorem firstWith_end (f : Cursor → β) (c : Cursor) :
    ((group "end" (opt (char '/'))).firstWith c fun d =>
        (char '>').firstWith d fun e => some (f e)) =
      (tagEnd? none c.rest).map fun e => f ((c.grouped "end" (slash e)).ahead ['>']) := by
  -- what stands behind the recorded text decides
  have hclose (t : Text) {rest : Text} (hrest : c.rest = t ++ rest) :
      ((char '>').firstWith ((c.ahead t).record "end" c) fun e => some (f e)) =
        if rest.head? = some '>' then some (f ((c.grouped "end" t).ahead ['>'])) else none := by
    have hbehind : ((c.ahead t).record "end" c).rest = rest := Cursor.rest_ahead_of_eq hrest
    cases rest with
    | nil => rw [firstWith_char_nil _ hbehind]; rfl
    | cons x rest =>
        rw [firstWith_char_cons _ hbehind, List.head?_cons]
        by_cases hx : x = '>'
        · subst hx; rfl
        · rw [if_neg hx, if_neg fun h => hx (Option.some.inj h)]
  rw [firstWith_group, firstWith_opt]
  cases hrest : c.rest with
  | nil =>
      rw [firstWith_char_nil _ hrest, Option.none_or]
      exact hclose [] hrest
  | cons x rest =>
      rw [firstWith_char_cons _ hrest]
      by_cases hslash : x = '/'
      · subst hslash
        rw [if_pos rfl]
        refine (congrArg₂ Option.or (hclose ['/'] hrest) (hclose [] hrest)).trans ?_
        rw [List.head?_cons, if_neg (by decide : some '/' ≠ some '>'), Option.or_none]
        cases rest with
        | nil => rfl
        | cons y rest =>
            by_cases hy : y = '>'
            · subst hy; rfl
            · simp [tagEnd?, hy]
      · rw [if_neg hslash, Option.none_or]
        refine (hclose [] hrest).trans ?_
        by_cases hx : x = '>'
        · subst hx; rfl
        · simp [tagEnd?, hx, hslash]

def behind (w : WrittenTag) (c : Cursor) : Cursor :=
  (((((c.ahead ['<']).grouped "slash" (slash w.isClosing)).grouped "name" w.name).grouped
    "attributes" w.body).grouped "end" (slash w.isSelfClosing)).ahead ['>']

def namedPattern : Cursor → (Cursor → Option β) → Option β := fun c next =>
  (group "name" Tag.tagName).firstWith c fun d =>
    (group "attributes" (lazyStar bodyPart)).firstWith d fun e =>
      (group "end" (opt (char '/'))).firstWith e fun e => (char '>').firstWith e next

theorem firstWith_tagName (hnext : ∀ d, (next d).isSome = closes none d.rest) (c : Cursor) :
    Tag.tagName.firstWith c next =
      if c.rest.head?.any isAsciiLetter then next (c.ahead (c.rest.takeWhile isNameChar))
      else none := by
  refine firstWith_run (q := isNameChar) (fun _ => isNameChar_of_isAsciiLetter) fun t ht hnone => ?_
  obtain ⟨more, hmore⟩ := ht
  have hall : ∀ x ∈ more, isNameChar x = true := fun x hx =>
    List.mem_takeWhile_imp (hmore ▸ List.mem_append_right t hx)
  have hpart : (c.ahead t).rest = more ++ c.rest.dropWhile isNameChar := by
    apply Cursor.rest_ahead_of_eq
    rw [← List.append_assoc, hmore, List.takeWhile_append_dropWhile]
  have hwhole : (c.ahead (c.rest.takeWhile isNameChar)).rest = c.rest.dropWhile isNameChar :=
    Cursor.rest_ahead_of_eq List.takeWhile_append_dropWhile.symm
  rw [← Option.not_isSome_iff_eq_none, hnext] at hnone ⊢
  rwa [hpart, closes_append_of_name hall, ← hwhole]

/-- A name is taken up as a whole: what stops earlier leads to an end only if this does. -/
theorem firstWith_named (f : Cursor → β) (isClosing : Bool) (c : Cursor) :
    namedPattern c (fun e => some (f e)) = (readNamed? isClosing c.rest).map fun w =>
      f ((((c.grouped "name" w.name).grouped "attributes" w.body).grouped "end"
        (slash w.isSelfClosing)).ahead ['>']) := by
  let F (d e : Cursor) (isSelfClosing : Bool) : β :=
    f (((e.record "attributes" d).grouped "end" (slash isSelfClosing)).ahead ['>'])
  have hbody (d : Cursor) : ((group "attributes" (lazyStar bodyPart)).firstWith d fun e =>
      (group "end" (opt (char '/'))).firstWith e fun e =>
        (char '>').firstWith e fun e => some (f e)) =
        (scan? none d.rest).map fun found => F d (d.ahead found.1) found.2 := by
    rw [firstWith_group]
    exact firstWith_body (fun e => firstWith_end f (e.record "attributes" d)) d
  have hname : namedPattern c (fun e => some (f e)) = Tag.tagName.firstWith c fun d =>
      (scan? none d.rest).map fun found =>
        F (d.record "name" c) ((d.record "name" c).ahead found.1) found.2 := by
    rw [namedPattern, firstWith_group]
    exact congrArg _ (funext fun d => hbody (d.record "name" c))
  rw [hname, firstWith_tagName fun d => by rw [Option.isSome_map, isSome_scan?], readNamed?]
  by_cases hletter : c.rest.head?.any isAsciiLetter = true
  · have hbehind : (c.ahead (c.rest.takeWhile isNameChar)).rest = c.rest.dropWhile isNameChar :=
      Cursor.rest_ahead_of_eq List.takeWhile_append_dropWhile.symm
    rw [if_pos hletter, if_pos hletter, hbehind, Option.map_map]
    rfl
  · rw [if_neg hletter, if_neg hletter]
    rfl

/-- The search for a tag finds what is read. -/
theorem firstWith_pattern (f : Cursor → β) (c : Cursor) :
    Tag.pattern.firstWith c (fun e => some (f e)) = (read? c.rest).map fun w => f (w.behind c) := by
  have hpattern : Tag.pattern.firstWith c (fun e => some (f e)) = (char '<').firstWith c fun d =>
      (group "slash" (opt (char '/'))).firstWith d fun e => namedPattern e fun e => some (f e) :=
    rfl
  rw [hpattern]
  cases hrest : c.rest with
  | nil => rw [firstWith_char_nil _ hrest]; rfl
  | cons x rest =>
      rw [firstWith_char_cons _ hrest]
      by_cases hx : x = '<'
      · subst hx
        have hrest' : (c.ahead ['<']).rest = rest := Cursor.rest_ahead_of_eq hrest
        have hnamed (isClosing : Bool) {t : Text} (ht : rest = slash isClosing ++ t) :
            namedPattern ((c.ahead ['<']).grouped "slash" (slash isClosing)) (fun e => some (f e)) =
              (readNamed? isClosing t).map fun w => f (w.behind c) := by
          have hbehind : ((c.ahead ['<']).grouped "slash" (slash isClosing)).rest = t :=
            Cursor.rest_ahead_of_eq (hrest'.trans ht)
          rw [firstWith_named f isClosing, hbehind]
          refine Option.map_congr fun w hw => ?_
          rw [behind, isClosing_of_readNamed? hw]
        rw [if_pos rfl, firstWith_group, firstWith_opt]
        by_cases hslash : rest.head? = some '/'
        · obtain ⟨t, rfl⟩ := List.head?_eq_some_iff.mp hslash
          rw [firstWith_char_cons _ hrest', if_pos rfl]
          refine (congrArg₂ Option.or (hnamed true rfl) (hnamed false rfl)).trans ?_
          exact Option.or_none
        · rw [firstWith_char_of_ne _ (by rwa [hrest']), Option.none_or, read?_of_no_slash hslash]
          exact hnamed false rfl
      · rw [if_neg hx, read?_cons_of_ne hx]
        rfl

theorem ofMatch_behind {w : WrittenTag} (hgroups : c.groups = [])
    (hrest : c.rest = w.text ++ rest) :
    Tag.ofMatch (matchOf c (w.behind c)) = w.tagAt c.position := by
  have hopening : (slash w.isClosing == ['/']) = w.isClosing := by cases w.isClosing <;> rfl
  have hending : (slash w.isSelfClosing == ['/']) = w.isSelfClosing := by
    cases w.isSelfClosing <;> rfl
  simp [Tag.ofMatch, matchOf, behind, Match.text, Match.startOf, Match.capture?, Capture.text,
    hrest, hgroups, tagAt, text, opening, ending, hopening, hending, List.lookup_cons]
  exact ⟨by omega, by omega, fun m _ => congrArg (Tag.attributeOf · m) (by omega)⟩

theorem position_behind (w : WrittenTag) (c : Cursor) :
    (w.behind c).position = c.position + w.text.length := by
  simp [behind, text, opening, ending]
  omega

/-- No match is empty, so each place has one at most. -/
theorem matchesAt_pattern (c : Cursor) :
    Tag.pattern.matchesAt c = ((read? c.rest).map fun w => matchOf c (w.behind c)).toList := by
  rw [matchesAt, first?, firstWith_pattern (matchOf c)]
  cases read? c.rest with
  | none => rfl
  | some w =>
      have hproper : c.position < (w.behind c).position := by
        rw [position_behind]
        exact Nat.lt_add_of_pos_right (Nat.succ_pos _)
      exact if_pos hproper

end WrittenTag

/-- A part of a line: a tag, or a character at which no tag starts. -/
inductive TagPiece where
  | plain (c : Char)
  | tag (w : WrittenTag)

namespace TagPiece

open WrittenTag (read? read?_eq_some_iff matchesAt_pattern ofMatch_behind position_behind)

def text : TagPiece → Text
  | plain c => [c]
  | tag w => w.text

def textOf (ps : List TagPiece) : Text := ps.flatMap text

/-- The tags are well formed, and none starts anywhere else. -/
def IsReading : List TagPiece → Prop
  | [] => True
  | plain c :: ps => read? (c :: textOf ps) = none ∧ IsReading ps
  | tag w :: ps => w.IsWellFormed ∧ IsReading ps

def tagsFrom (position : Nat) : List TagPiece → List Tag
  | [] => []
  | plain _ :: ps => tagsFrom (position + 1) ps
  | tag w :: ps => w.tagAt position :: tagsFrom (position + w.text.length) ps

variable {ps : List TagPiece}

theorem textOf_cons (p : TagPiece) (ps : List TagPiece) : textOf (p :: ps) = p.text ++ textOf ps :=
  List.flatMap_cons

theorem exists_isReading (line : Text) : ∃ ps, IsReading ps ∧ textOf ps = line := by
  induction hn : line.length using Nat.strongRecOn generalizing line with
  | ind n ih =>
      cases line with
      | nil => exact ⟨[], trivial, rfl⟩
      | cons c line =>
          cases hread : read? (c :: line) with
          | none =>
              obtain ⟨ps, hps, rfl⟩ := ih line.length (hn ▸ Nat.lt_succ_self _) line rfl
              exact ⟨plain c :: ps, ⟨hread, hps⟩, rfl⟩
          | some w =>
              obtain ⟨hw, rest, hrest⟩ := read?_eq_some_iff.mp hread
              have hshort : rest.length < n := by
                rw [← hn, ← hrest, List.length_append]
                exact Nat.lt_add_of_pos_left (Nat.succ_pos _)
              obtain ⟨ps, hps, rfl⟩ := ih rest.length hshort rest rfl
              exact ⟨tag w :: ps, ⟨hw, hps⟩, hrest⟩

theorem map_ofMatch_findFrom (h : IsReading ps) (position : Nat) (previous : Option Char) :
    (Tag.pattern.findFrom position position previous (textOf ps)).map Tag.ofMatch =
      tagsFrom position ps := by
  induction ps generalizing position previous with
  | nil =>
      change (Tag.pattern.findFrom position position previous []).map Tag.ofMatch = []
      rw [Pattern.findFrom, if_neg (Nat.lt_irrefl _), matchesAt_pattern]
      rfl
  | cons p ps ih =>
      cases p with
      | plain c =>
          obtain ⟨hnone, h⟩ := h
          change (Tag.pattern.findFrom position position previous (c :: textOf ps)).map _ = _
          rw [Pattern.findFrom, if_neg (Nat.lt_irrefl _), matchesAt_pattern, hnone]
          rw [Option.map_none, Option.toList_none, List.nil_append, List.getLast?_nil,
            Option.map_none, Option.getD_none,
            Pattern.findFrom_of_resume_le _ (Nat.le_succ _), ih h]
          rfl
      | tag w =>
          obtain ⟨hw, h⟩ := h
          have hmatch := matchesAt_pattern ⟨position, previous, w.text ++ textOf ps, []⟩
          have hstop := position_behind w ⟨position, previous, w.text ++ textOf ps, []⟩
          rw [read?_eq_some_iff.mpr ⟨hw, List.prefix_append _ _⟩] at hmatch
          rw [textOf_cons, text, Pattern.findFrom_of_matchesAt hmatch (List.cons_ne_nil _ _) hstop,
            List.map_cons, ofMatch_behind rfl rfl, ih h]
          exact congrArg (_ :: tagsFrom · ps) hstop

/-- The tags of a line are those that are read. -/
theorem all_textOf (h : IsReading ps) : Tag.all (textOf ps) = tagsFrom 0 ps :=
  map_ofMatch_findFrom h 0 none

end TagPiece

end LineLint
