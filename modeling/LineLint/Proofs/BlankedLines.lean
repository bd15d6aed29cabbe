import LineLint.Proofs.ScannedText
import LineLint.Tag

/-!
# Blanked lines

The comments of a line are blanked character by character. Outside a comment the next mark is the
one that opens it, and inside the one that ends it; before that mark nothing changes its state. A
character that is part of neither mark cuts the line into two parts that are blanked one after the
other.
-/

namespace LineLint

namespace MarkupComment

def mark : Bool → Text
  | false => "<!--".toList
  | true => "-->".toList

def shown (inside : Bool) (c : Char) : Char := if inside then ' ' else c

variable {inside : Bool} {c : Char} {front rest : Text}

@[simp] theorem blankLine_nil (inside : Bool) : blankLine inside [] = ([], inside) := by
  cases inside <;> rfl

theorem blankFrom_cons (inside : Bool) (line : Text) (rest : List Text) :
    blankFrom inside (line :: rest) =
      (blankLine inside line).1 :: blankFrom (blankLine inside line).2 rest :=
  rfl

def insideAfter (inside : Bool) (lines : List Text) : Bool :=
  lines.foldl (fun inside line => (blankLine inside line).2) inside

theorem blankFrom_append (inside : Bool) (front back : List Text) :
    blankFrom inside (front ++ back) =
      blankFrom inside front ++ blankFrom (insideAfter inside front) back := by
  induction front generalizing inside with
  | nil => rfl
  | cons line front ih => rw [List.cons_append, blankFrom_cons, blankFrom_cons, ih]; rfl

theorem blankLine_mark (inside : Bool) (rest : Text) :
    blankLine inside (mark inside ++ rest) =
      (List.replicate (mark inside).length ' ' ++ (blankLine (!inside) rest).1,
        (blankLine (!inside) rest).2) := by
  cases inside <;> rfl

theorem blankLine_cons (h : ¬mark inside <+: c :: rest) :
    blankLine inside (c :: rest) =
      (shown inside c :: (blankLine inside rest).1, (blankLine inside rest).2) := by
  cases inside with
  | false =>
      rw [blankLine]
      · rfl
      · rintro rest' rfl rfl
        exact h (List.prefix_append (mark false) rest')
  | true =>
      rw [blankLine]
      · rfl
      · rintro rest' rfl rfl
        exact h (List.prefix_append (mark true) rest')

theorem length_blankLine (inside : Bool) (line : Text) :
    (blankLine inside line).1.length = line.length := by
  fun_induction blankLine inside line with
  | case1 => rfl
  | case2 rest t _ heq ih => simpa [heq] using ih
  | case3 c rest _ t _ heq ih => simpa [heq] using ih
  | case4 rest t _ heq ih => simpa [heq] using ih
  | case5 c rest _ t _ heq ih => simpa [heq] using ih

/-- What comes before the next mark is shown or blanked as a whole. -/
theorem blankLine_append_of_no_mark
    (h : ∀ i < front.length, ¬mark inside <+: (front ++ rest).drop i) :
    blankLine inside (front ++ rest) =
      (front.map (shown inside) ++ (blankLine inside rest).1, (blankLine inside rest).2) := by
  induction front with
  | nil => rfl
  | cons c front ih =>
      have hfirst : ¬mark inside <+: c :: (front ++ rest) := h 0 (Nat.succ_pos _)
      have hlater := ih fun i hi => h (i + 1) (Nat.succ_lt_succ hi)
      rw [List.cons_append, blankLine_cons hfirst, hlater]
      rfl

theorem blankLine_append_cons (hc : ∀ inside, c ∉ mark inside) (inside : Bool) (front rest : Text) :
    blankLine inside (front ++ c :: rest) =
      ((blankLine inside front).1 ++ (blankLine (blankLine inside front).2 (c :: rest)).1,
        (blankLine (blankLine inside front).2 (c :: rest)).2) := by
  induction hn : front.length using Nat.strongRecOn generalizing inside front with
  | ind n ih =>
      by_cases hmark : mark inside <+: front
      · obtain ⟨front, rfl⟩ := hmark
        have hshort : front.length < n := by
          rw [← hn, List.length_append]
          cases inside <;> simp [mark]
        rw [List.append_assoc, blankLine_mark, blankLine_mark, ih _ hshort _ _ rfl,
          List.append_assoc]
      · cases front with
        | nil => rw [blankLine_nil]; rfl
        | cons x front =>
            have hwhole : ¬mark inside <+: x :: (front ++ c :: rest) := fun h =>
              hmark ((Text.prefix_append_cons_iff (hc inside)).mp h)
            have hshort : front.length < n := by
              rw [← hn]
              exact Nat.lt_succ_self _
            rw [List.cons_append, blankLine_cons hwhole, blankLine_cons hmark,
              ih _ hshort _ _ rfl, List.cons_append]

theorem blankLine_cons_of_notMem (hc : c ∉ mark inside) (rest : Text) :
    blankLine inside (c :: rest) =
      (shown inside c :: (blankLine inside rest).1, (blankLine inside rest).2) :=
  blankLine_cons fun h => by
    have hnone : mark inside <+: [] := (Text.prefix_append_cons_iff (s := []) hc).mp h
    cases inside <;> simp [mark] at hnone

/-- A text without any character of the next mark is shown or blanked as a whole. -/
theorem blankLine_append_of_notMem (hfront : ∀ c ∈ front, c ∉ mark inside) (rest : Text) :
    blankLine inside (front ++ rest) =
      (front.map (shown inside) ++ (blankLine inside rest).1, (blankLine inside rest).2) := by
  induction front with
  | nil => rfl
  | cons c front ih =>
      obtain ⟨hc, hfront⟩ := List.forall_mem_cons.mp hfront
      rw [List.cons_append, blankLine_cons_of_notMem hc, ih hfront]
      rfl

theorem getElem?_blankLine {t : Text} {i : Nat} (h : (blankLine inside t).1[i]? = some c)
    (hc : c ≠ ' ') : t[i]? = some c := by
  have hbehind (n : Nat) {i : Nat} {s : Text} (hspaces : (List.replicate n ' ' ++ s)[i]? = some c) :
      ∃ k, i = k + n ∧ s[k]? = some c := by
    by_cases hi : i < n
    · rw [List.getElem?_append_left (by simpa using hi), List.getElem?_replicate,
        if_pos hi] at hspaces
      exact absurd (Option.some.inj hspaces).symm hc
    · rw [List.getElem?_append_right (by simpa using hi), List.length_replicate] at hspaces
      exact ⟨i - n, by omega, hspaces⟩
  fun_induction blankLine inside t generalizing i with
  | case1 => exact h
  | case2 rest s _ heq ih =>
      obtain ⟨k, rfl, h⟩ := hbehind 4 h
      exact ih (by rwa [heq])
  | case3 d rest _ s _ heq ih =>
      cases i with
      | zero => exact h
      | succ i => exact ih (by rw [heq]; exact h)
  | case4 rest s _ heq ih =>
      obtain ⟨k, rfl, h⟩ := hbehind 3 h
      exact ih (by rwa [heq])
  | case5 d rest _ s _ heq ih =>
      obtain ⟨k, rfl, h⟩ := hbehind 1 h
      exact ih (by rwa [heq])

/-- A character that is shown, and in neither mark, stands outside of all comments. -/
theorem exists_of_blankLine_eq {t back : Text} {after : Bool} (hc : ∀ inside, c ∉ mark inside)
    (hblank : c ≠ ' ') (h : blankLine inside t = (front ++ c :: back, after)) :
    ∃ front' back', t = front' ++ c :: back' ∧ front'.length = front.length ∧
      blankLine inside front' = (front, false) ∧ blankLine false back' = (back, after) := by
  have hlength : t.length = front.length + (back.length + 1) := by
    rw [← length_blankLine inside t, h, List.length_append, List.length_cons]
  have hstands : t[front.length]? = some c := by
    have hshown : (blankLine inside t).1[front.length]? = some c := by
      rw [h, List.getElem?_append_right (Nat.le_refl _), Nat.sub_self]
      rfl
    exact getElem?_blankLine hshown hblank
  obtain ⟨hlt, hget⟩ := List.getElem?_eq_some_iff.mp hstands
  have hsplit : t = t.take front.length ++ c :: t.drop (front.length + 1) := by
    rw [← hget, List.getElem_cons_drop, List.take_append_drop]
  have hfront : (t.take front.length).length = front.length :=
    List.length_take_of_le (Nat.le_of_lt hlt)
  refine ⟨_, _, hsplit, hfront, ?_⟩
  rw [hsplit, blankLine_append_cons hc, blankLine_cons_of_notMem (hc _)] at h
  obtain ⟨hshown, hafter⟩ := Prod.mk.inj h
  obtain ⟨hbefore, hbehind⟩ :=
    List.append_inj hshown (by rw [length_blankLine, hfront])
  obtain ⟨hhere, hback⟩ := List.cons.inj hbehind
  have houtside : (blankLine inside (t.take front.length)).2 = false := by
    cases hstate : (blankLine inside (t.take front.length)).2 with
    | false => rfl
    | true =>
        rw [hstate] at hhere
        exact absurd hhere.symm hblank
  rw [houtside] at hback hafter
  exact ⟨Prod.ext hbefore houtside, Prod.ext hback hafter⟩

/-- A text that is put in behind such a character, and holds none of the mark that opens a comment,
is shown, and nothing else changes. -/
theorem blankLine_insert {t back new : Text} {after : Bool} (hc : ∀ inside, c ∉ mark inside)
    (hblank : c ≠ ' ') (hnew : ∀ x ∈ new, x ∉ mark false)
    (h : blankLine inside t = (front ++ c :: back, after)) :
    blankLine inside (Text.splice t (front.length + 1) (front.length + 1) new) =
      (front ++ c :: (new ++ back), after) := by
  obtain ⟨front', back', rfl, hlength, hfront, hback⟩ := exists_of_blankLine_eq hc hblank h
  have hsplice : Text.splice (front' ++ c :: back') (front.length + 1) (front.length + 1) new =
      front' ++ c :: (new ++ back') := by
    have hsplit : front' ++ c :: back' = (front' ++ [c]) ++ back' := by simp
    have hplace : (front' ++ [c]).length = front.length + 1 := by simp [hlength]
    rw [Text.splice, hsplit, List.take_left' hplace, List.drop_left' hplace]
    simp
  have hshown : new.map (shown false) = new := List.map_id _
  rw [hsplice, blankLine_append_cons hc, hfront, blankLine_cons_of_notMem (hc false),
    blankLine_append_of_notMem hnew, hback, hshown]
  rfl

end MarkupComment

end LineLint
