import LineLint.Proofs.AttributeSearch
import LineLint.Proofs.BlankedLines

/-!
# Where names stand

The names of the tags of a line and of their attributes stand apart, in the order in which they are
found, each behind what may come before a name. So they do in the line with its comments, whose last
character is a sign of markup, too.
-/

namespace LineLint

namespace Tag

open Pattern
open WrittenTag (isNameChar)

variable {c : Cursor} {before rest name front back : Text} {x first : Char}
  {spots spots' : List (Text × Nat)}

/-- Names and their places in the second of two texts that stand one behind the other. -/
inductive NamesIn : Text → Text → List (Text × Nat) → Prop
  | nil (before rest : Text) : NamesIn before rest []
  | skip {before rest : Text} {spots : List (Text × Nat)} (x : Char)
      (hrest : NamesIn (before ++ [x]) rest spots) : NamesIn before (x :: rest) spots
  | name {before name rest : Text} {spots : List (Text × Nat)} (hname : name ≠ [])
      (hchars : ∀ x ∈ name, isAttributeChar x = true)
      (hbounds : ∀ first ∈ name.head?, Bounds before first)
      (hrest : NamesIn (before ++ name) rest spots) :
      NamesIn before (name ++ rest) ((name, before.length) :: spots)

namespace NamesIn

theorem skip_append (front : Text) (h : NamesIn (before ++ front) rest spots) :
    NamesIn before (front ++ rest) spots := by
  induction front generalizing before with
  | nil => rwa [List.append_nil] at h
  | cons x front ih =>
      refine skip x (ih ?_)
      rwa [List.append_assoc]

theorem append (h : NamesIn before rest spots) (hmore : NamesIn (before ++ rest) back spots') :
    NamesIn before (rest ++ back) (spots ++ spots') := by
  induction h with
  | nil before rest => exact skip_append rest hmore
  | skip x hrest ih => exact skip x (ih (by rwa [List.append_assoc]))
  | name hname hchars hbounds hrest ih =>
      rw [List.append_assoc]
      exact name hname hchars hbounds (ih (by rwa [List.append_assoc]))

theorem of_mem {s : Text × Nat} (h : NamesIn before rest spots) (hs : s ∈ spots) :
    s.1 ≠ [] ∧ ∀ x ∈ s.1, isAttributeChar x = true := by
  induction h with
  | nil before rest => cases hs
  | skip x hrest ih => exact ih hs
  | name hname hchars hbounds hrest ih =>
      rcases List.mem_cons.mp hs with rfl | hs
      · exact ⟨hname, hchars⟩
      · exact ih hs

theorem sublist (h : NamesIn before rest spots) (hsub : spots'.Sublist spots) :
    NamesIn before rest spots' := by
  induction h generalizing spots' with
  | nil before rest =>
      rw [List.sublist_nil.mp hsub]
      exact nil before rest
  | skip x hrest ih => exact skip x (ih hsub)
  | name hname hchars hbounds hrest ih =>
      cases hsub with
      | cons _ hsub => exact skip_append _ (ih hsub)
      | cons_cons _ hsub => exact name hname hchars hbounds (ih hsub)

end NamesIn

def nameSpot (offset : Nat) (m : Match) : Text × Nat := (m.text "name", offset + m.startOf "name")

theorem matchesAt_nil (hrest : c.rest = []) : attributePattern.matchesAt c = [] := by
  have hnone : attributePattern.first? c = none := by
    change ((one isAttributeChar ++ star (one isAttributeChar)).firstWith c fun e => _) = _
    rw [firstWith_append, firstWith_one_nil _ hrest]
  rw [matchesAt, hnone]

/-- An attribute that is matched where a name starts: its name, what the match takes behind the
name, and the text behind the match. -/
structure AttributeAt (position : Nat) (t name tail behind : Text) (m : Match) : Prop where
  text_eq : t = name ++ (tail ++ behind)
  name_ne_nil : name ≠ []
  chars : ∀ x ∈ name, isAttributeChar x = true
  captured : m.capture? "name" = some ⟨position, t, name.length⟩
  stop_eq : m.stop = position + (name ++ tail).length
  bounds : ∀ x ∈ behind.head?, isAttributeChar x = true → Bounds tail x

theorem AttributeAt.nameSpot_eq {position : Nat} {t tail behind : Text} {m : Match}
    (h : AttributeAt position t name tail behind m) (offset : Nat) :
    nameSpot offset m = (name, offset + position) := by
  rw [nameSpot, Match.text, Match.startOf, h.captured]
  refine Prod.ext ?_ rfl
  change t.take name.length = name
  rw [h.text_eq, List.take_left]

/-- The search finds an attribute at a character of a name, and goes on behind the match. -/
theorem exists_attributeAt (position : Nat) (previous : Option Char)
    (hx : isAttributeChar x = true) (rest : Text) :
    ∃ name tail behind m, AttributeAt position (x :: rest) name tail behind m ∧
      attributePattern.findFrom position position previous (x :: rest) =
        m :: attributePattern.findFrom m.stop m.stop ((name ++ tail).getLast?.or previous)
          behind := by
  let name := (x :: rest).takeWhile isAttributeChar
  let c : Cursor := ⟨position, previous, x :: rest, []⟩
  have hname : name ≠ [] := by simp [name, hx]
  have hsplit : x :: rest = name ++ (x :: rest).dropWhile isAttributeChar :=
    List.takeWhile_append_dropWhile.symm
  have hchars : ∀ y ∈ name, isAttributeChar y = true := fun _ hy => List.mem_takeWhile_imp hy
  have hstop : ∀ y ∈ ((x :: rest).dropWhile isAttributeChar).head?, isAttributeChar y = false := by
    intro y hy
    have hnot := List.head?_dropWhile_not isAttributeChar (x :: rest)
    rw [Option.mem_def.mp hy] at hnot
    simpa using hnot
  obtain ⟨tail, behind, e, htail, hfirst, hposition, hgroup, hbehind⟩ :=
    exists_first?_attributePattern (c := c) hname hchars hsplit hstop
  have hrest : x :: rest = name ++ tail ++ behind := by
    rw [List.append_assoc, ← htail]
    exact hsplit
  have hpositive := List.length_pos_of_ne_nil hname
  have hmatch : attributePattern.matchesAt ⟨position, previous, name ++ tail ++ behind, []⟩ =
      [matchOf c e] := by
    rw [← hrest, matchesAt, hfirst]
    refine if_pos ?_
    simp only [matchOf, hposition, c, List.length_append]
    omega
  refine ⟨name, tail, behind, matchOf c e, ⟨?_, hname, hchars, hgroup, hposition, hbehind⟩, ?_⟩
  · rw [hrest, List.append_assoc]
  · rw [hrest]
    exact findFrom_of_matchesAt hmatch (by simp [hname]) hposition

/-- The names of attributes stand in the text, if one at its start is bounded. -/
theorem namesIn_findFrom {offset position : Nat} (previous : Option Char)
    (hlength : before.length = offset + position)
    (hbounds : ∀ x ∈ rest.head?, isAttributeChar x = true → Bounds before x) :
    NamesIn before rest
      ((attributePattern.findFrom position position previous rest).map (nameSpot offset)) := by
  induction hn : rest.length using Nat.strongRecOn generalizing before rest position previous with
  | ind n ih =>
      cases rest with
      | nil =>
          rw [findFrom, if_neg (Nat.lt_irrefl _), matchesAt_nil rfl]
          exact .nil before []
      | cons x rest =>
          by_cases hx : isAttributeChar x = true
          · obtain ⟨name, tail, behind, m, hat, hfind⟩ :=
              exists_attributeAt position previous hx rest
            have hpositive := List.length_pos_of_ne_nil hat.name_ne_nil
            rw [hfind, List.map_cons, hat.nameSpot_eq, ← hlength, hat.text_eq]
            refine .name hat.name_ne_nil hat.chars (fun first hfirst => ?_) (.skip_append tail ?_)
            · refine hbounds first ?_ (hat.chars first (List.mem_of_mem_head? hfirst))
              rw [hat.text_eq, List.head?_append_of_ne_nil _ hat.name_ne_nil]
              exact hfirst
            · refine ih behind.length ?_ _ ?_ (fun y hy hname => ?_) rfl
              · have htotal := congrArg List.length hat.text_eq
                simp only [List.length_append] at htotal
                omega
              · rw [hat.stop_eq, List.append_assoc, List.length_append, hlength]
                exact Nat.add_assoc _ _ _
              · exact (hat.bounds y hy hname).append_left _
          · rw [Bool.not_eq_true] at hx
            rw [findFrom, if_neg (Nat.lt_irrefl _), matchesAt_blank hx rfl]
            simp only [List.nil_append, List.getLast?_nil, Option.map_none, Option.getD_none]
            rw [findFrom_of_resume_le _ (Nat.le_succ position)]
            refine .skip x (ih rest.length ?_ _ ?_ (fun y _ _ => bounds_snoc hx before y) rfl)
            · rw [← hn]
              exact Nat.lt_succ_self _
            · rw [List.length_append, hlength]
              rfl

theorem isAttributeChar_of_isNameChar (hx : isNameChar x = true) : isAttributeChar x = true := by
  have hblank : isBlank x = false := by
    refine Bool.eq_false_iff.mpr fun hblank => ?_
    rw [isNameChar, isWordChar_of_isBlank hblank, Bool.false_or, beq_iff_eq] at hx
    subst hx
    cases hblank
  have hsigns : (['"', '\'', '<', '>', '/', '='].all fun y => !isNameChar y) = true := by decide
  have hnot : x ∉ ['"', '\'', '<', '>', '/', '='] := fun hmem => by
    have hsign := List.all_eq_true.mp hsigns x hmem
    rw [hx] at hsign
    cases hsign
  rw [isAttributeChar, hblank, List.contains_eq_mem, decide_eq_false hnot]
  rfl

def names (t : Tag) : List (Text × Nat) :=
  (t.name, t.nameStart) :: t.attributes.map fun a => (a.name, a.start)

theorem exists_opening_eq (w : WrittenTag) :
    ∃ front sign, w.opening = front ++ [sign] ∧ isAttributeChar sign = false := by
  rw [WrittenTag.opening]
  cases w.isClosing with
  | false => exact ⟨[], '<', rfl, rfl⟩
  | true => exact ⟨['<'], '/', rfl, rfl⟩

theorem bounds_name {w : WrittenTag} (hw : w.IsWellFormed) (before : Text)
    (hx : isNameChar x = false) : Bounds (before ++ w.opening ++ w.name) x := by
  obtain ⟨front, sign, hopening, hsign⟩ := exists_opening_eq w
  refine ⟨before ++ front, sign, w.name, by simp [hopening], hsign,
    fun _ => (Bool.or_eq_false_iff.mp hx).1, fun c hc => ?_⟩
  have hname := hw.name c hc
  refine ⟨?_, ?_, ?_⟩
  · have hchar := isAttributeChar_of_isNameChar hname
    rw [isAttributeChar, Bool.and_eq_true, Bool.not_eq_true'] at hchar
    exact hchar.1
  · rintro rfl
    rw [hname] at hx
    cases hx
  · rintro rfl
    rw [isNameChar_lowerChar hx] at hname
    cases hname

theorem namesIn_tagAt {w : WrittenTag} (hw : w.IsWellFormed) (before : Text) :
    NamesIn before w.text (names (w.tagAt before.length)) := by
  have hname : w.name ≠ [] := by
    intro hnil
    have hletter := hw.letter
    rw [hnil] at hletter
    cases hletter
  have hbefore : (before ++ w.opening).length = before.length + w.opening.length :=
    List.length_append
  have hbounds : ∀ first ∈ w.name.head?, Bounds (before ++ w.opening) first := by
    intro first _
    obtain ⟨front, sign, hopening, hsign⟩ := exists_opening_eq w
    rw [hopening, ← List.append_assoc]
    exact bounds_snoc hsign _ first
  have hbody : NamesIn (before ++ w.opening ++ w.name) w.body
      ((w.tagAt before.length).attributes.map fun a => (a.name, a.start)) := by
    rw [WrittenTag.tagAt, List.map_map]
    refine namesIn_findFrom none ?_ fun x hx _ => bounds_name hw before (hw.stop x ?_)
    · rw [List.length_append, hbefore]
      rfl
    · rw [List.head?_append, Option.mem_def.mp hx]
      rfl
  have hends : NamesIn (before ++ w.opening ++ w.name) (w.body ++ WrittenTag.ending w.isSelfClosing)
      ((w.tagAt before.length).attributes.map fun a => (a.name, a.start)) := by
    have happend := hbody.append (.nil _ (WrittenTag.ending w.isSelfClosing))
    rwa [List.append_nil] at happend
  have hnamed := NamesIn.name hname (fun c hc => isAttributeChar_of_isNameChar (hw.name c hc))
    hbounds hends
  rw [hbefore] at hnamed
  exact .skip_append w.opening hnamed

theorem namesIn_tagsFrom {ps : List TagPiece} (h : TagPiece.IsReading ps) (before : Text) :
    NamesIn before (TagPiece.textOf ps) ((TagPiece.tagsFrom before.length ps).flatMap names) := by
  induction ps generalizing before with
  | nil => exact .nil before []
  | cons p ps ih =>
      cases p with
      | plain c =>
          have hrest := ih h.2 (before ++ [c])
          rw [List.length_append] at hrest
          exact .skip c hrest
      | tag w =>
          have hrest := ih h.2 (before ++ w.text)
          rw [List.length_append] at hrest
          exact (namesIn_tagAt h.1 before).append hrest

theorem namesIn_all (line : Text) : NamesIn [] line ((all line).flatMap names) := by
  obtain ⟨ps, hreading, rfl⟩ := TagPiece.exists_isReading line
  rw [TagPiece.all_textOf hreading]
  exact namesIn_tagsFrom hreading []

end Tag

namespace MarkupComment

open Tag (isAttributeChar Bounds NamesIn)

variable {inside : Bool} {line before before' rest rest' a b c' : Text} {c d first : Char} {i : Nat}
  {spots : List (Text × Nat)}

theorem eq_space_of_blankLine_true {t : Text} {after : Bool} (h : blankLine true rest = (t, after))
    (hc : t[0]? = some c) : c = ' ' := by
  obtain rfl := congrArg Prod.fst h
  cases rest with
  | nil => cases hc
  | cons x rest =>
      by_cases hmark : mark true <+: x :: rest
      · obtain ⟨more, hmore⟩ := hmark
        rw [← hmore, blankLine_mark] at hc
        exact (Option.some.inj hc).symm
      · rw [blankLine_cons hmark] at hc
        exact (Option.some.inj hc).symm

/-- The last character of a comment is a sign of markup. -/
theorem sign_of_blankLine {t : Text} (hspace : (blankLine inside t).1[i]? = some ' ')
    (hnext : (blankLine inside t).1[i + 1]? = some c) (hc : c ≠ ' ') (hd : t[i]? = some d) :
    isAttributeChar d = false := by
  fun_induction blankLine inside t generalizing i with
  | case1 => cases hd
  | case2 rest t after heq ih =>
      rcases i with _ | _ | _ | _ | i
      iterate 3 exact absurd (Option.some.inj hnext).symm hc
      · exact absurd (eq_space_of_blankLine_true heq hnext) hc
      · exact ih (by rw [heq]; exact hspace) (by rw [heq]; exact hnext) hd
  | case3 x rest _ t after heq ih =>
      cases i with
      | zero =>
          obtain rfl : x = d := Option.some.inj hd
          rw [Option.some.inj hspace]
          rfl
      | succ i => exact ih (by rw [heq]; exact hspace) (by rw [heq]; exact hnext) hd
  | case4 rest t after heq ih =>
      rcases i with _ | _ | _ | i
      iterate 2 exact absurd (Option.some.inj hnext).symm hc
      · rw [← Option.some.inj hd]
        rfl
      · exact ih (by rw [heq]; exact hspace) (by rw [heq]; exact hnext) hd
  | case5 x rest _ t after heq ih =>
      cases i with
      | zero => exact absurd (eq_space_of_blankLine_true heq hnext) hc
      | succ i => exact ih (by rw [heq]; exact hspace) (by rw [heq]; exact hnext) hd

/-- What has no spaces stands in the line where the blanked line shows it. -/
theorem exists_of_blankLine_append (h : (blankLine inside line).1 = a ++ (b ++ c'))
    (hb : ∀ x ∈ b, x ≠ ' ') : ∃ a' c'', line = a' ++ (b ++ c'') ∧ a'.length = a.length := by
  have hlength : line.length = a.length + (b.length + c'.length) := by
    rw [← length_blankLine inside line, h, List.length_append, List.length_append]
  have hmiddle : (line.drop a.length).take b.length = b := by
    refine List.ext_getElem? fun i => ?_
    rw [List.getElem?_take]
    split_ifs with hi
    · have hshown : (blankLine inside line).1[a.length + i]? = some b[i] := by
        rw [h, List.getElem?_append_right (Nat.le_add_right _ _), Nat.add_sub_cancel_left,
          List.getElem?_append_left hi, List.getElem?_eq_getElem hi]
      rw [List.getElem?_drop, getElem?_blankLine hshown (hb _ (List.getElem_mem hi)),
        List.getElem?_eq_getElem hi]
    · rw [List.getElem?_eq_none (Nat.le_of_not_lt hi)]
  refine ⟨line.take a.length, (line.drop a.length).drop b.length, ?_, ?_⟩
  · conv_lhs => rw [← List.take_append_drop a.length line,
      ← List.take_append_drop b.length (line.drop a.length), hmiddle]
  · rw [List.length_take]
    omega

/-- What is shown with no spaces stands at its place of the line. -/
theorem eq_append_of_blankLine (h : (blankLine inside line).1 = before ++ (b ++ rest))
    (hline : line = before' ++ rest') (hlength : before'.length = before.length)
    (hb : ∀ x ∈ b, x ≠ ' ') : ∃ rest'', rest' = b ++ rest'' := by
  obtain ⟨a', c'', hsplit, ha'⟩ := exists_of_blankLine_append h hb
  rw [hline] at hsplit
  exact ⟨c'', (List.append_inj hsplit (hlength.trans ha'.symm)).2⟩

theorem bounds_of_blankLine {t : Text} (h : (blankLine inside t).1 = before ++ first :: rest)
    (hline : t = before' ++ rest') (hlength : before'.length = before.length)
    (hfirst : first ≠ ' ') (hbounds : Bounds before first) : Bounds before' first := by
  obtain ⟨front, sign, run, rfl, hsign, hword, hrun⟩ := hbounds
  have hshown : (blankLine inside t).1 =
      (front ++ [sign]) ++ ((run ++ [first]) ++ rest) := by simp [h]
  have hspaces : ∀ x ∈ run ++ [first], x ≠ ' ' := by
    intro x hx
    rcases List.mem_append.mp hx with hx | hx
    · rintro rfl
      cases (hrun ' ' hx).1
    · exact List.mem_singleton.mp hx ▸ hfirst
  obtain ⟨a', c'', hsplit, ha'⟩ := exists_of_blankLine_append hshown hspaces
  obtain ⟨front', sign', rfl⟩ : ∃ front' sign', a' = front' ++ [sign'] := by
    rcases List.eq_nil_or_concat a' with rfl | ⟨front', sign', rfl⟩
    · simp at ha'
    · exact ⟨front', sign', List.concat_eq_append⟩
  have hfront : front'.length = front.length := by simpa using ha'
  have hbefore : before' = front' ++ sign' :: run := by
    have hsame : before' ++ rest' = (front' ++ sign' :: run) ++ (first :: c'') := by
      rw [← hline, hsplit]
      simp
    refine (List.append_inj hsame ?_).1
    rw [hlength, List.length_append, List.length_append, hfront]
    rfl
  refine ⟨front', sign', run, hbefore, ?_, hword, hrun⟩
  -- the sign is shown, or it is blanked as the last character of a comment
  have hsign' : t[front.length]? = some sign' := by
    rw [hsplit, ← hfront]
    simp
  have hat : (blankLine inside t).1[front.length]? = some sign := by
    rw [hshown]
    simp
  by_cases hspace : sign = ' '
  · subst hspace
    obtain ⟨c, more, hmore⟩ : ∃ c more, run ++ [first] = c :: more :=
      List.exists_cons_of_ne_nil (by simp)
    have hnext : (blankLine inside t).1[front.length + 1]? = some c := by
      rw [hshown, hmore]
      simp
    exact sign_of_blankLine hat hnext (hspaces c (by rw [hmore]; exact List.mem_cons_self)) hsign'
  · obtain rfl := Option.some.inj ((getElem?_blankLine hat hspace).symm.trans hsign')
    exact hsign

theorem namesIn_of_blankLine (h : (blankLine inside line).1 = before ++ rest)
    (hline : line = before' ++ rest') (hlength : before'.length = before.length)
    (hnames : NamesIn before rest spots) : NamesIn before' rest' spots := by
  induction hnames generalizing before' rest' with
  | nil before rest => exact .nil before' rest'
  | @skip before rest spots x hrest ih =>
      cases rest' with
      | nil =>
          have htotal := length_blankLine inside line
          rw [h, hline] at htotal
          simp at htotal
          omega
      | cons x' rest' =>
          refine .skip x' (ih ?_ ?_ ?_)
          · rw [h, List.append_assoc]
            rfl
          · rw [hline, List.append_assoc]
            rfl
          · rw [List.length_append, List.length_append, hlength]
            rfl
  | @name before name rest spots hname hchars hbounds hrest ih =>
      have hspaces : ∀ x ∈ name, x ≠ ' ' := by
        rintro x hx rfl
        cases hchars ' ' hx
      obtain ⟨rest'', rfl⟩ := eq_append_of_blankLine h hline hlength hspaces
      have hplace : NamesIn (before' ++ name) rest'' spots :=
        ih (by rw [h, List.append_assoc]) (by rw [hline, List.append_assoc])
          (by rw [List.length_append, List.length_append, hlength])
      rw [← hlength]
      refine .name hname hchars (fun first hfirst => ?_) hplace
      obtain ⟨others, rfl⟩ := List.head?_eq_some_iff.mp hfirst
      exact bounds_of_blankLine h hline hlength (hspaces first List.mem_cons_self)
        (hbounds first rfl)

end MarkupComment

end LineLint
