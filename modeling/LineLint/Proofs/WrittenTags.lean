import LineLint.Proofs.IdentifierWords
import LineLint.Tag

/-!
# Written tags

A tag is read in one pass from left to right that keeps which quote is open, so that an end within a
quoted value does not count. What is read depends on the text of the tag only, not on what follows.
-/

namespace LineLint

/-- A tag as it stands in a line: the text between its name and its end holds the attributes. -/
structure WrittenTag where
  isClosing : Bool
  name : Text
  body : Text
  isSelfClosing : Bool

namespace WrittenTag

def isNameChar (c : Char) : Bool := isWordChar c || c == '-'

def isQuote (c : Char) : Bool := c == '"' || c == '\''

def quoteAfter : Option Char → Char → Option Char
  | none, c => if isQuote c then some c else none
  | some quote, c => if c = quote then none else some quote

def slash (b : Bool) : Text := if b then ['/'] else []

/-- Whether a tag that ends here closes itself; it cannot end in a quoted value. -/
def tagEnd? : Option Char → Text → Option Bool
  | none, '>' :: _ => some false
  | none, '/' :: '>' :: _ => some true
  | _, _ => none

/-- What a tag holds up to its end, and whether it closes itself. -/
def scan? (quote : Option Char) : Text → Option (Text × Bool)
  | [] => none
  | c :: rest =>
      match tagEnd? quote (c :: rest) with
      | some e => some ([], e)
      | none => (scan? (quoteAfter quote c) rest).map fun (body, e) => (c :: body, e)

def readNamed? (isClosing : Bool) (t : Text) : Option WrittenTag :=
  if t.head?.any isAsciiLetter then
    (scan? none (t.dropWhile isNameChar)).map fun (body, e) =>
      ⟨isClosing, t.takeWhile isNameChar, body, e⟩
  else none

def read? : Text → Option WrittenTag
  | '<' :: '/' :: rest => readNamed? true rest
  | '<' :: rest => readNamed? false rest
  | _ => none

def opening (w : WrittenTag) : Text := '<' :: slash w.isClosing

def ending (isSelfClosing : Bool) : Text := slash isSelfClosing ++ ['>']

def text (w : WrittenTag) : Text := w.opening ++ (w.name ++ (w.body ++ ending w.isSelfClosing))

def tagAt (position : Nat) (w : WrittenTag) : Tag where
  name := w.name
  start := position
  stop := position + w.text.length
  nameStart := position + w.opening.length
  isClosing := w.isClosing
  isSelfClosing := w.isSelfClosing
  attributes := (Tag.attributePattern.findAll w.body).map
    (Tag.attributeOf (position + w.opening.length + w.name.length))

def closes (quote : Option Char) : Text → Bool
  | [] => false
  | c :: rest => (quote.isNone && c == '>') || closes (quoteAfter quote c) rest

/-- A tag whose parts are cut off where they end. -/
structure IsWellFormed (w : WrittenTag) : Prop where
  letter : w.name.head?.any isAsciiLetter = true
  name : ∀ c ∈ w.name, isNameChar c = true
  stop : ∀ c ∈ (w.body ++ ending w.isSelfClosing).head?, isNameChar c = false
  body : scan? none (w.body ++ ending w.isSelfClosing) = some (w.body, w.isSelfClosing)

section Scan

variable {quote : Option Char} {t rest body : Text} {c : Char} {e : Bool}

theorem tagEnd?_eq_some_iff : tagEnd? quote t = some e ↔ quote = none ∧ ending e <+: t := by
  fun_cases tagEnd? quote t with
  | case1 rest => cases e <;> simp [ending, slash]
  | case2 rest => cases e <;> simp [ending, slash]
  | case3 quote t hend hslash =>
      simp only [reduceCtorEq, false_iff, not_and]
      rintro rfl ⟨rest, rfl⟩
      cases e with
      | false => exact hend rest rfl rfl
      | true => exact hslash rest rfl rfl

theorem tagEnd?_eq_none_iff : tagEnd? quote t = none ↔ quote = none → ∀ e, ¬ending e <+: t := by
  rw [Option.eq_none_iff_forall_ne_some]
  simp only [ne_eq, tagEnd?_eq_some_iff, not_and]
  exact forall_comm

theorem tagEnd?_cons_append (ht : t ≠ []) :
    tagEnd? quote (c :: (t ++ rest)) = tagEnd? quote (c :: t) := by
  refine Option.ext fun e => ?_
  rw [tagEnd?_eq_some_iff, tagEnd?_eq_some_iff, ← List.cons_append]
  refine and_congr_right fun _ => ⟨fun h => ?_, fun h => h.trans (List.prefix_append _ _)⟩
  refine List.prefix_of_prefix_length_le h (List.prefix_append _ _) ?_
  have hlength := List.length_pos_of_ne_nil ht
  cases e with
  | false => exact Nat.succ_le_succ (Nat.zero_le _)
  | true => exact Nat.succ_le_succ hlength

theorem scan?_of_end (h : tagEnd? quote t = some e) : scan? quote t = some ([], e) := by
  cases t with
  | nil => simp [tagEnd?] at h
  | cons c rest => rw [scan?, h]

theorem scan?_cons_of_none (h : tagEnd? quote (c :: rest) = none) :
    scan? quote (c :: rest) =
      (scan? (quoteAfter quote c) rest).map fun found => (c :: found.1, found.2) := by
  rw [scan?, h]

theorem closes_of_end (h : tagEnd? quote t = some e) : closes quote t = true := by
  obtain ⟨rfl, rest, rfl⟩ := tagEnd?_eq_some_iff.mp h
  cases e <;> simp [ending, slash, closes, quoteAfter, isQuote]

theorem isSome_scan? (quote : Option Char) (t : Text) :
    (scan? quote t).isSome = closes quote t := by
  induction t generalizing quote with
  | nil => rfl
  | cons c rest ih =>
      cases hend : tagEnd? quote (c :: rest) with
      | some e => rw [scan?_of_end hend, closes_of_end hend, Option.isSome_some]
      | none =>
          have hhere : (quote.isNone && c == '>') = false := by
            rw [Bool.and_eq_false_imp]
            intro hquote
            have hnot := tagEnd?_eq_none_iff.mp hend (Option.isNone_iff_eq_none.mp hquote) false
            refine beq_false_of_ne fun hc => hnot ?_
            exact List.cons_prefix_cons.mpr ⟨hc.symm, List.nil_prefix⟩
          rw [scan?_cons_of_none hend, Option.isSome_map, ih, closes, hhere, Bool.false_or]

theorem exists_of_scan? (h : scan? quote t = some (body, e)) :
    ∃ rest, t = body ++ (ending e ++ rest) ∧
      ∀ rest', scan? quote (body ++ (ending e ++ rest')) = some (body, e) := by
  induction t generalizing quote body with
  | nil => cases h
  | cons c t ih =>
      cases hend : tagEnd? quote (c :: t) with
      | some e' =>
          rw [scan?_of_end hend] at h
          cases h
          obtain ⟨rfl, rest, hrest⟩ := tagEnd?_eq_some_iff.mp hend
          refine ⟨rest, hrest.symm, fun rest' => scan?_of_end ?_⟩
          exact tagEnd?_eq_some_iff.mpr ⟨rfl, List.prefix_append _ _⟩
      | none =>
          rw [scan?_cons_of_none hend] at h
          obtain ⟨⟨body, e⟩, hfound, hsame⟩ := Option.map_eq_some_iff.mp h
          cases hsame
          obtain ⟨rest, rfl, hall⟩ := ih hfound
          refine ⟨rest, rfl, fun rest' => ?_⟩
          have hne : body ++ ending e ≠ [] := by simp [ending]
          have hsame : tagEnd? quote (c :: (body ++ (ending e ++ rest'))) = none := by
            rw [← List.append_assoc, tagEnd?_cons_append hne] at hend ⊢
            exact hend
          rw [List.cons_append, scan?_cons_of_none hsame, hall]
          rfl

theorem scan?_append (h : scan? quote (body ++ ending e) = some (body, e)) (rest : Text) :
    scan? quote (body ++ (ending e ++ rest)) = some (body, e) := by
  obtain ⟨-, -, hall⟩ := exists_of_scan? h
  exact hall rest

theorem scan?_quoted {quote : Char} (ht : quote ∉ t) (rest : Text) :
    scan? (some quote) (t ++ quote :: rest) =
      (scan? none rest).map fun found => (t ++ quote :: found.1, found.2) := by
  induction t with
  | nil => rw [List.nil_append, scan?_cons_of_none rfl, quoteAfter, if_pos rfl]; rfl
  | cons c t ih =>
      obtain ⟨hc, ht⟩ := not_or.mp (mt List.mem_cons.mpr ht)
      rw [List.cons_append, scan?_cons_of_none rfl, quoteAfter, if_neg (Ne.symm hc), ih ht,
        Option.map_map]
      rfl

theorem scan?_open {quote : Char} (ht : quote ∉ t) : scan? (some quote) t = none := by
  induction t with
  | nil => rfl
  | cons c t ih =>
      obtain ⟨hc, ht⟩ := not_or.mp (mt List.mem_cons.mpr ht)
      rw [scan?_cons_of_none rfl, quoteAfter, if_neg (Ne.symm hc), ih ht]
      rfl

theorem closes_append_of_name (ht : ∀ c ∈ t, isNameChar c = true) :
    closes none (t ++ rest) = closes none rest := by
  induction t with
  | nil => rfl
  | cons c t ih =>
      obtain ⟨hc, ht⟩ := List.forall_mem_cons.mp ht
      have hne {x : Char} (hx : isNameChar x = false) : (c == x) = false :=
        beq_false_of_ne fun h => Bool.false_ne_true (hx.symm.trans (h ▸ hc))
      have hend : (c == '>') = false := hne rfl
      have hquote : isQuote c = false := by rw [isQuote, hne rfl, hne rfl]; rfl
      rw [List.cons_append, closes, quoteAfter, hquote, hend, if_neg Bool.false_ne_true, ih ht]
      rfl

end Scan

section Read

open Identifier (not_of_mem_head?_dropWhile takeWhile_append_of_head)

variable {t rest : Text}

theorem isNameChar_of_isAsciiLetter {x : Char} (hx : isAsciiLetter x = true) :
    isNameChar x = true := by
  rw [isNameChar, isWordChar_of_nameStart (by rw [hx, Bool.true_or]), Bool.true_or]

theorem read?_cons_of_ne {x : Char} (hx : x ≠ '<') (rest : Text) : read? (x :: rest) = none := by
  unfold read?
  split
  · rename_i h; exact absurd (List.cons.inj h).1 hx
  · rename_i h; exact absurd (List.cons.inj h).1 hx
  · rfl

theorem read?_of_no_slash (h : rest.head? ≠ some '/') :
    read? ('<' :: rest) = readNamed? false rest := by
  unfold read?
  split
  · rename_i heq
    obtain rfl := (List.cons.inj heq).2
    exact absurd rfl h
  · rename_i heq
    rw [(List.cons.inj heq).2]
  · rename_i hne
    exact absurd rfl (hne rest)

theorem body_append_ending_ne_nil (w : WrittenTag) : w.body ++ ending w.isSelfClosing ≠ [] := by
  simp [ending]

theorem IsWellFormed.name_ne_nil {w : WrittenTag} (h : w.IsWellFormed) : w.name ≠ [] := by
  intro hnil
  have hletter := h.letter
  rw [hnil] at hletter
  cases hletter

/-- What is read after the slash is what stands there, and well formed. -/
theorem readNamed?_eq_some_iff {isClosing : Bool} {w : WrittenTag} :
    readNamed? isClosing t = some w ↔ w.isClosing = isClosing ∧ w.IsWellFormed ∧
      w.name ++ (w.body ++ ending w.isSelfClosing) <+: t := by
  constructor
  · intro h
    unfold readNamed? at h
    split_ifs at h with hletter
    obtain ⟨⟨body, e⟩, hfound, rfl⟩ := Option.map_eq_some_iff.mp h
    obtain ⟨rest, hrest, hall⟩ := exists_of_scan? hfound
    have hsplit : t.takeWhile isNameChar ++ (body ++ (ending e ++ rest)) = t := by
      rw [← hrest, List.takeWhile_append_dropWhile]
    have hbody : scan? none (body ++ ending e) = some (body, e) := by simpa using hall []
    refine ⟨rfl, ⟨?_, fun c hc => List.mem_takeWhile_imp hc, ?_, hbody⟩, rest, ?_⟩
    · cases t with
      | nil => exact hletter
      | cons x t => rwa [List.takeWhile_cons_of_pos (isNameChar_of_isAsciiLetter hletter)]
    · rw [← List.head?_append_of_ne_nil _ (body_append_ending_ne_nil ⟨isClosing, [], body, e⟩),
        List.append_assoc, ← hrest]
      exact not_of_mem_head?_dropWhile _ _
    · simpa using hsplit
  · rintro ⟨rfl, hw, rest, rfl⟩
    have hbehind : ∀ c ∈ (w.body ++ ending w.isSelfClosing ++ rest).head?,
        isNameChar c = false := by
      rw [List.head?_append_of_ne_nil _ w.body_append_ending_ne_nil]
      exact hw.stop
    have hname := takeWhile_append_of_head hw.name hbehind
    have hbody := hname ▸ List.takeWhile_append_dropWhile (p := isNameChar)
      (l := w.name ++ (w.body ++ ending w.isSelfClosing ++ rest))
    rw [List.append_assoc, readNamed?, List.head?_append_of_ne_nil _ hw.name_ne_nil,
      if_pos hw.letter, hname, List.append_cancel_left hbody, List.append_assoc,
      scan?_append hw.body]
    rfl

theorem isClosing_of_readNamed? {isClosing : Bool} {w : WrittenTag}
    (h : readNamed? isClosing t = some w) : w.isClosing = isClosing :=
  (readNamed?_eq_some_iff.mp h).1

theorem read?_eq_some_iff {w : WrittenTag} : read? t = some w ↔ w.IsWellFormed ∧ w.text <+: t := by
  constructor
  · intro h
    unfold read? at h
    split at h
    · obtain ⟨hclosing, hw, rest, rfl⟩ := readNamed?_eq_some_iff.mp h
      exact ⟨hw, rest, by simp [text, opening, slash, hclosing]⟩
    · obtain ⟨hclosing, hw, rest, rfl⟩ := readNamed?_eq_some_iff.mp h
      exact ⟨hw, rest, by simp [text, opening, slash, hclosing]⟩
    · cases h
  · rintro ⟨hw, rest, rfl⟩
    have hnamed : readNamed? w.isClosing (w.name ++ (w.body ++ ending w.isSelfClosing) ++ rest) =
        some w := readNamed?_eq_some_iff.mpr ⟨rfl, hw, List.prefix_append _ _⟩
    cases hclosing : w.isClosing with
    | true =>
        rw [hclosing] at hnamed
        rw [← hnamed]
        simp [text, opening, slash, hclosing, read?]
    | false =>
        have hno_slash :
            (w.name ++ (w.body ++ ending w.isSelfClosing) ++ rest).head? ≠ some '/' := by
          rw [List.append_assoc, List.head?_append_of_ne_nil _ hw.name_ne_nil]
          intro hhead
          have hletter := hw.letter
          rw [hhead] at hletter
          cases hletter
        rw [hclosing, ← read?_of_no_slash hno_slash] at hnamed
        rw [← hnamed]
        simp [text, opening, slash, hclosing]

end Read

end WrittenTag

end LineLint
