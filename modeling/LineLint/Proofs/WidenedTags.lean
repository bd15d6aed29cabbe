import LineLint.Proofs.TagSearch

/-!
# Widened tags

A text is put into some tags of a line, directly behind the name. If whoever reads the line passes
over that text in any state and is left in the same state, every tag is found as before, and no
other one: what opens outside of the tags and runs on into them ends where it did, or not at all.
-/

namespace LineLint

namespace WrittenTag

def IsState (quote : Option Char) : Prop := ∀ q ∈ quote, isQuote q = true

/-- A text that is passed over in every state, which it leaves as it was. -/
def IsTransparent (new : Text) : Prop :=
  ∀ quote, IsState quote → ∀ t,
    scan? quote (new ++ t) = (scan? quote t).map fun found => (new ++ found.1, found.2)

structure IsInsertable (new : Text) : Prop where
  transparent : IsTransparent new
  stop : ∀ c ∈ new.head?, isNameChar c = false

def widen (new : Text) (w : WrittenTag) : WrittenTag := { w with body := new ++ w.body }

variable {new more t t' front : Text} {quote : Option Char} {c : Char} {w : WrittenTag}

theorem IsState.after (h : IsState quote) (c : Char) : IsState (quoteAfter quote c) := by
  cases quote with
  | none =>
      rw [quoteAfter]
      split_ifs with hc
      · rintro _ ⟨⟩
        exact hc
      · rintro _ ⟨⟩
  | some quote =>
      rw [quoteAfter]
      split_ifs
      · rintro _ ⟨⟩
      · exact h

section Transparent

theorem isTransparent_nil : IsTransparent [] := fun _ _ _ => (Option.map_id' ..).symm

theorem IsTransparent.append (h : IsTransparent new) (hmore : IsTransparent more) :
    IsTransparent (new ++ more) := by
  intro quote hquote t
  rw [List.append_assoc, h quote hquote, hmore quote hquote, Option.map_map]
  simp [Function.comp_def]

def isInner (c : Char) : Bool := !isQuote c && c != '>' && c != '/'

theorem isTransparent_of_inner (h : ∀ c ∈ new, isInner c = true) : IsTransparent new := by
  intro quote hquote t
  induction new with
  | nil => exact isTransparent_nil quote hquote t
  | cons c new ih =>
      obtain ⟨hc, h⟩ := List.forall_mem_cons.mp h
      have hinner : (isQuote c = false ∧ c ≠ '>') ∧ c ≠ '/' := by simpa [isInner] using hc
      obtain ⟨⟨hnot, hend⟩, hslash⟩ := hinner
      have hgoes : tagEnd? quote (c :: (new ++ t)) = none := by
        refine tagEnd?_eq_none_iff.mpr fun _ e hprefix => ?_
        cases e with
        | false => exact hend (List.cons_prefix_cons.mp hprefix).1.symm
        | true => exact hslash (List.cons_prefix_cons.mp hprefix).1.symm
      have hstate : quoteAfter quote c = quote := by
        cases quote with
        | none => rw [quoteAfter, hnot]; rfl
        | some quote =>
            have hne : c ≠ quote := by
              rintro rfl
              exact Bool.false_ne_true (hnot.symm.trans (hquote c rfl))
            rw [quoteAfter, if_neg hne]
      rw [List.cons_append, scan?_cons_of_none hgoes, hstate, ih h, Option.map_map]
      rfl

/-- An empty quoted value opens and closes a quote, or closes the open one and opens it again. -/
theorem isTransparent_quotes : IsTransparent "\"\"".toList := by
  intro quote hquote t
  have hgoes (quote : Option Char) (t : Text) : tagEnd? quote ('"' :: t) = none :=
    tagEnd?_eq_none_iff.mpr fun _ e hprefix => by
      cases e <;> exact absurd (List.cons_prefix_cons.mp hprefix).1 (by decide)
  have hstate : quoteAfter (quoteAfter quote '"') '"' = quote := by
    cases quote with
    | none => rfl
    | some quote =>
        by_cases hsame : quote = '"'
        · subst hsame; rfl
        · rw [quoteAfter, if_neg (Ne.symm hsame), quoteAfter, if_neg (Ne.symm hsame)]
  change scan? quote ('"' :: '"' :: t) = _
  rw [scan?_cons_of_none (hgoes _ _), scan?_cons_of_none (hgoes _ _), hstate, Option.map_map]
  rfl

theorem IsTransparent.closes_append (h : IsTransparent new) (hquote : IsState quote) (t : Text) :
    closes quote (new ++ t) = closes quote t := by
  rw [← isSome_scan?, ← isSome_scan?, h quote hquote, Option.isSome_map]

theorem isInsertable_nil : IsInsertable [] := ⟨isTransparent_nil, fun _ h => by cases h⟩

theorem IsInsertable.append (h : IsInsertable new) (hmore : IsInsertable more) :
    IsInsertable (new ++ more) := by
  refine ⟨h.transparent.append hmore.transparent, ?_⟩
  cases new with
  | nil => exact hmore.stop
  | cons c new => exact h.stop

theorem isInsertable_flatMap {α : Type} {f : α → Text} {l : List α}
    (h : ∀ a ∈ l, IsInsertable (f a)) : IsInsertable (l.flatMap f) := by
  induction l with
  | nil => exact isInsertable_nil
  | cons a l ih =>
      obtain ⟨ha, h⟩ := List.forall_mem_cons.mp h
      exact ha.append (ih h)

theorem IsWellFormed.widen (hw : w.IsWellFormed) (hnew : IsInsertable new) :
    (w.widen new).IsWellFormed where
  letter := hw.letter
  name := hw.name
  stop := by
    cases new with
    | nil => exact hw.stop
    | cons c new => exact hnew.stop
  body := by
    change scan? none (new ++ w.body ++ ending w.isSelfClosing) = _
    rw [List.append_assoc, hnew.transparent none (fun _ h => by cases h), hw.body]
    rfl

end Transparent

section Alike

def startsName (t : Text) : Bool :=
  t.head?.any isAsciiLetter || (t.head? == some '/' && t.tail.head?.any isAsciiLetter)

/-- Two texts that are the same to whoever reads on into them from a tag or what looks like one. -/
structure Alike (t t' : Text) : Prop where
  head : t.head? = t'.head?
  startsName : startsName t = startsName t'
  closes : ∀ quote, IsState quote → closes quote t = closes quote t'

theorem closes_append_congr (h : ∀ quote, IsState quote → closes quote t = closes quote t')
    (front : Text) (hquote : IsState quote) :
    closes quote (front ++ t) = closes quote (front ++ t') := by
  induction front generalizing quote with
  | nil => exact h quote hquote
  | cons c front ih =>
      rw [List.cons_append, List.cons_append, WrittenTag.closes, WrittenTag.closes,
        ih (hquote.after c)]

theorem alike_refl (t : Text) : Alike t t := ⟨rfl, rfl, fun _ _ => rfl⟩

theorem Alike.cons (h : Alike t t') (c : Char) : Alike (c :: t) (c :: t') where
  head := rfl
  startsName := by simp only [WrittenTag.startsName, List.head?_cons, List.tail_cons, h.head]
  closes _ hquote := closes_append_congr h.closes [c] hquote

theorem closes_dropWhile (t : Text) : closes none (t.dropWhile isNameChar) = closes none t := by
  conv_rhs => rw [← List.takeWhile_append_dropWhile (p := isNameChar) (l := t)]
  exact (closes_append_of_name fun _ hc => List.mem_takeWhile_imp hc).symm

theorem isSome_readNamed? (isClosing : Bool) (t : Text) :
    (readNamed? isClosing t).isSome = (t.head?.any isAsciiLetter && closes none t) := by
  rw [readNamed?, ← closes_dropWhile, ← isSome_scan?]
  cases t.head?.any isAsciiLetter with
  | false => rfl
  | true => rw [if_pos rfl, Option.isSome_map, Bool.true_and]

theorem isSome_read? (c : Char) (t : Text) :
    (read? (c :: t)).isSome = (c == '<' && (startsName t && closes none t)) := by
  by_cases hc : c = '<'
  · subst hc
    by_cases hslash : t.head? = some '/'
    · obtain ⟨t, rfl⟩ := List.head?_eq_some_iff.mp hslash
      change (readNamed? true t).isSome = _
      rw [isSome_readNamed?]
      rfl
    · rw [read?_of_no_slash hslash, isSome_readNamed?]
      rw [startsName, beq_false_of_ne hslash, Bool.false_and, Bool.or_false]
      rfl
  · rw [read?_cons_of_ne hc]
    simp [hc]

theorem Alike.read?_eq_none_iff (h : Alike t t') (c : Char) :
    read? (c :: t) = none ↔ read? (c :: t') = none := by
  rw [← Option.not_isSome_iff_eq_none, ← Option.not_isSome_iff_eq_none, isSome_read?, isSome_read?,
    h.startsName, h.closes none (fun _ h => by cases h)]

end Alike

end WrittenTag

namespace TagPiece

open WrittenTag

def widen (extra : WrittenTag → Text) : TagPiece → TagPiece
  | plain c => plain c
  | tag w => tag (w.widen (extra w))

variable {extra : WrittenTag → Text} {ps : List TagPiece}

theorem alike_map_widen (hextra : ∀ w, IsInsertable (extra w)) (ps : List TagPiece) :
    Alike (textOf (ps.map (widen extra))) (textOf ps) := by
  induction ps with
  | nil => exact alike_refl []
  | cons p ps ih =>
      cases p with
      | plain c => exact ih.cons c
      | tag w =>
          rw [List.map_cons, textOf_cons, textOf_cons]
          refine ⟨rfl, rfl, fun quote hquote => ?_⟩
          let front := w.opening ++ w.name
          let back := w.body ++ ending w.isSelfClosing
          have hnew : (widen extra (tag w)).text ++ textOf (ps.map (widen extra)) =
              front ++ (extra w ++ (back ++ textOf (ps.map (widen extra)))) := by
            simp [front, back, widen, text, WrittenTag.text, WrittenTag.widen, WrittenTag.opening]
          have hold : (tag w).text ++ textOf ps = front ++ back ++ textOf ps := by
            simp [front, back, text, WrittenTag.text]
          have hpass := closes_append_congr
            (fun quote hquote => (hextra w).transparent.closes_append hquote
              (back ++ textOf (ps.map (widen extra)))) front hquote
          rw [hnew, hold, hpass, ← List.append_assoc]
          exact closes_append_congr ih.closes _ hquote

theorem IsReading.map_widen (hextra : ∀ w, IsInsertable (extra w)) (h : IsReading ps) :
    IsReading (ps.map (widen extra)) := by
  induction ps with
  | nil => exact trivial
  | cons p ps ih =>
      cases p with
      | plain c => exact ⟨((alike_map_widen hextra ps).read?_eq_none_iff c).mpr h.1, ih h.2⟩
      | tag w => exact ⟨h.1.widen (hextra w), ih h.2⟩

end TagPiece

end LineLint
