import LineLint.Proofs.CapturedText
import LineLint.Proofs.PatternPlaces
import LineLint.Proofs.SoundIdioms
import LineLint.Proofs.SpelledWords
import Mathlib.Data.List.Flatten

/-!
# Reported names

A report of the naming rule gives the name that a line declares and the one to use instead. The new
name has the characters of the old one that belong to words, and no others but underscores; so a
letter beyond ASCII is lost. It is a keyword exactly if its convention spells the keyword so and the
old name is the keyword in one of the spellings, with something behind it that is dropped.
-/

namespace LineLint

namespace NamingConvention

open Identifier (isWordPart leadingUnderscores dropUnderscores)

variable {r : NamingConvention} {lines : List Text} {line masked declared fixed : Text}
  {t : NamingTarget} {i : Nat} {f : Finding}

section Reports

/-- What the rule asks of a line: the target, the name that is declared and the one to use. -/
def renaming? (r : NamingConvention) (line : Text) : Option (NamingTarget × Text × Text) :=
  if line.trim.isEmpty || r.style.isCommentLine line.trim then none
  else r.targets.findSome? (r.violation? (r.style.maskLiterals (r.style.splitComment line).1))

def report (r : NamingConvention) (i : Nat) (line : Text) (t : NamingTarget)
    (declared fixed : Text) : Diagnostic where
  code := "LINT_NAMING_CONVENTION"
  message := t.kind.toList ++ " name '".toList ++ declared ++ "' should use ".toList ++
    t.convention.name.toList
  line := i + 1
  category := "Naming"
  suggestion := "Rename to '".toList ++ fixed ++ "'".toList
  snippet := line
  replacement := some (r.style.replaceWord line declared fixed)

theorem exists_renaming_of_mem_check (hline : lines[i]? = some line) (hf : f ∈ r.check i line) :
    ∃ t declared fixed, r.renaming? line = some (t, declared, fixed) ∧
      Spec.namingConvention.report lines f = .ok (r.report i line t declared fixed) := by
  simp only [check] at hf
  split_ifs at hf with hskips
  · cases hf
  · split at hf
    · cases hf
    · rename_i t declared fixed hfirst
      obtain rfl := List.mem_singleton.mp hf
      refine ⟨t, declared, fixed, by rw [renaming?, if_neg hskips, hfirst], ?_⟩
      rw [Spec.report, hline]
      simp [Spec.diagnostic, Spec.namingConvention, Template.fill, List.lookup_cons, Except.map,
        bind, Except.bind, pure, Except.pure, report]

def HoldsOfReports (r : NamingConvention) (P : NamingTarget → Text → Text → Prop) : Prop :=
  ∀ lines, ∃ ds, r.rule.run lines = .ok ds ∧ ∀ d ∈ ds, ∃ i line t declared fixed,
    lines[i]? = some line ∧ r.renaming? line = some (t, declared, fixed) ∧
      d = r.report i line t declared fixed ∧ P t declared fixed

theorem holdsOfReports_of_renaming {P : NamingTarget → Text → Text → Prop}
    (h : ∀ line t declared fixed, r.renaming? line = some (t, declared, fixed) →
      P t declared fixed) : r.HoldsOfReports P := by
  intro lines
  obtain ⟨ds, hrun⟩ := (NamingConvention.isSound r).runs lines
  refine ⟨ds, hrun, fun d hd => ?_⟩
  obtain ⟨f, hf, hreport⟩ := (Rule.mem_iff_of_run_ofCheck hrun).mp hd
  obtain ⟨i, line, hline, hf⟩ := Rule.mem_eachLine.mp hf
  obtain ⟨t, declared, fixed, hrenaming, hd⟩ := exists_renaming_of_mem_check hline hf
  exact ⟨i, line, t, declared, fixed, hline, hrenaming, Except.ok.inj (hreport.symm.trans hd),
    h line t declared fixed hrenaming⟩

theorem exists_match_of_renaming (h : r.renaming? line = some (t, declared, fixed)) :
    t ∈ r.targets ∧ (∃ masked m, t.pattern.search? masked = some m ∧ m.text "name" = declared) ∧
      r.fixedName? t declared = some fixed := by
  unfold renaming? at h
  split_ifs at h
  obtain ⟨target, htarget, hviolation⟩ := List.exists_of_findSome?_eq_some h
  obtain ⟨m, hm, hviolation⟩ := Option.bind_eq_some_iff.mp hviolation
  split_ifs at hviolation
  obtain ⟨new, hnew, heq⟩ := Option.map_eq_some_iff.mp hviolation
  cases heq
  exact ⟨htarget, ⟨_, m, hm, rfl⟩, hnew⟩

/-- When a name is changed, and into what. -/
structure Fixes (r : NamingConvention) (t : NamingTarget) (declared fixed : Text) : Prop where
  eq : fixed = leadingUnderscores declared ++ t.convention.convert (dropUnderscores declared)
  exempt : ∀ p ∈ t.exempt, p.occursIn declared = false
  ne_nil : declared ≠ []

theorem fixes_of_fixedName? (h : r.fixedName? t declared = some fixed) :
    r.Fixes t declared fixed := by
  unfold fixedName? at h
  simp only at h
  split_ifs at h with hskip
  simp only [Bool.or_eq_true, not_or, Bool.not_eq_true] at hskip
  obtain ⟨⟨⟨⟨⟨-, hexempt⟩, hcore⟩, -⟩, -⟩, -⟩ := hskip
  refine ⟨(Option.some.inj h).symm, fun p hp => ?_, ?_⟩
  · rw [Option.mem_def.mp hp] at hexempt
    exact hexempt
  · rintro rfl
    cases hcore

end Reports

section Builtin

def builtin : List NamingConvention :=
  [CSharp.naming, Java.naming, JavaScript.naming, Python.naming]

theorem perm_registered :
    (builtin.map fun r => (r.style, r.rule)).Perm
      (Registry.registered Spec.namingConvention.code) := by
  have horder : Registry.registered Spec.namingConvention.code =
      [CSharp.naming, Python.naming, Java.naming, JavaScript.naming].map
        fun r => (r.style, r.rule) := rfl
  rw [horder]
  exact (List.Perm.cons _ (List.perm_append_singleton Python.naming [_, _])).map _

theorem plain_of_mem_keywords : ∀ r ∈ builtin, ∀ word ∈ r.keywords,
    Identifier.shaped isAsciiLetter isAsciiLower word = true := by
  decide +kernel

def StartsName (c : Char) : Prop := isAsciiLetter c = true ∨ c = '_'

theorem begins_name : Pattern.name.Begins StartsName :=
  (Pattern.begins_one fun c hc => by simpa [StartsName] using hc).append _

theorem begins_dollarName : Pattern.dollarName.Begins fun c => StartsName c ∨ c = '$' :=
  (Pattern.begins_one fun c hc => by simpa [StartsName] using hc).append _

def nameBodies (r : NamingConvention) : List Pattern :=
  r.targets.flatMap fun t => t.pattern.bodiesOf "name"

theorem begins_of_mem_nameBodies : ∀ r ∈ builtin, (∀ body ∈ r.nameBodies, body.Begins StartsName) ∨
    (∀ body ∈ r.nameBodies, body.Begins fun c => StartsName c ∨ c = '$') ∧
      ∀ t ∈ r.targets, t.exempt = some (Pattern.char '$') := by
  simp only [builtin, List.forall_mem_cons]
  refine ⟨Or.inl ?_, Or.inl ?_, Or.inr ⟨?_, ?_⟩, Or.inl ?_, List.forall_mem_nil _⟩
  · have hbodies : CSharp.naming.nameBodies = [Pattern.name, Pattern.name] := rfl
    simp [hbodies, begins_name]
  · have hbodies : Java.naming.nameBodies = [Pattern.name, Pattern.name, Pattern.name] := rfl
    simp [hbodies, begins_name]
  · have hbodies : JavaScript.naming.nameBodies = [Pattern.dollarName, Pattern.dollarName] := rfl
    simp [hbodies, begins_dollarName]
  · simp [JavaScript.naming]
  · have hconstant : (Pattern.one isAsciiUpper).Begins StartsName :=
      Pattern.begins_one fun c hc => Or.inl (isAsciiLetter_of_isAsciiUpper hc)
    have hbodies : ∃ first second third : Pattern, Python.naming.nameBodies =
        [Pattern.name, Pattern.name, Pattern.one isAsciiUpper ++ first ++ second ++ third,
          Pattern.name] := ⟨_, _, _, rfl⟩
    obtain ⟨first, second, third, hbodies⟩ := hbodies
    simp [hbodies, begins_name, ((hconstant.append first).append second).append third]

theorem occursIn_char {c : Char} {t : Text} (h : c ∈ t) : (Pattern.char c).occursIn t = true := by
  obtain ⟨before, rest, rfl⟩ := List.append_of_mem h
  obtain ⟨d, hd, -⟩ := Cursor.passes_step? (c := ⟨before.length, before.getLast?, c :: rest, []⟩)
    (beq_self_eq_true c) rfl
  exact Pattern.occursIn_iff.mpr ⟨before, c :: rest, d, rfl, Option.mem_toList.mpr hd⟩

theorem exists_startsName (hr : r ∈ builtin)
    (h : r.renaming? line = some (t, declared, fixed)) : ∃ c ∈ declared.head?, StartsName c := by
  obtain ⟨ht, ⟨masked, m, hm, rfl⟩, hfixed⟩ := exists_match_of_renaming h
  have hfixes := fixes_of_fixedName? hfixed
  have hbodies {q : Char → Prop} (hq : ∀ body ∈ r.nameBodies, body.Begins q) :
      ∃ c ∈ (m.text "name").head?, q c :=
    Pattern.exists_mem_head?_text
      (fun body hbody => hq body (List.mem_flatMap.mpr ⟨t, ht, hbody⟩)) hm hfixes.ne_nil
  rcases begins_of_mem_nameBodies r hr with hnames | ⟨hnames, hexempt⟩
  · exact hbodies hnames
  · obtain ⟨c, hc, hstarts⟩ := hbodies hnames
    refine ⟨c, hc, hstarts.resolve_right ?_⟩
    rintro rfl
    have hnone := hfixes.exempt _ (hexempt t ht)
    rw [occursIn_char (List.mem_of_mem_head? hc)] at hnone
    cases hnone

end Builtin

section Keywords

theorem fixed_eq_iff {word : Text} (hfixes : r.Fixes t declared fixed)
    (hstarts : ∃ c ∈ declared.head?, StartsName c)
    (hplain : Identifier.shaped isAsciiLetter isAsciiLower word = true) :
    fixed = word ↔ t.convention.holds word = true ∧ ∃ (other : Convention) (back : Text),
      (∀ c ∈ back, isWordPart c = false) ∧ declared = other.spell word ++ back := by
  obtain ⟨c, hc, hletter | rfl⟩ := hstarts
  · have hfirst : ∃ c ∈ declared.head?, isAsciiLetter c = true := ⟨c, hc, hletter⟩
    rw [hfixes.eq, Convention.leadingUnderscores_of_head hfirst,
      Convention.dropUnderscores_of_head hfirst, List.nil_append,
      Convention.convert_eq_iff hplain hfirst]
  · obtain ⟨rest, rfl⟩ := List.head?_eq_some_iff.mp hc
    have hletters := Convention.isAsciiLetter_of_plain hplain
    refine iff_of_false ?_ ?_
    · rintro rfl
      have hmem : '_' ∈ fixed := by
        rw [hfixes.eq]
        exact List.mem_append_left _ List.mem_cons_self
      exact absurd (hletters '_' hmem) (by decide)
    · rintro ⟨-, other, back, -, hsplit⟩
      have hword := Convention.isWord_spell other (Convention.ne_nil_of_plain hplain) hletters
      obtain ⟨x, others, hspell⟩ := List.exists_cons_of_ne_nil hword.ne_nil
      have hpart := hword.isWordPart x (hspell ▸ List.mem_cons_self)
      rw [hspell] at hsplit
      obtain ⟨rfl, -⟩ := List.cons.inj hsplit
      exact absurd hpart (by decide)

/-- A name is changed into a keyword exactly if the convention spells the keyword so and the name is
the keyword in one of the spellings, with something behind it that belongs to no word. -/
theorem fixed_eq_keyword_iff (hr : r ∈ builtin) :
    r.HoldsOfReports fun t declared fixed => ∀ word ∈ r.keywords, fixed = word ↔
      t.convention.holds word = true ∧ ∃ (other : Convention) (back : Text),
        (∀ c ∈ back, isWordPart c = false) ∧ declared = other.spell word ++ back := by
  refine holdsOfReports_of_renaming fun line t declared fixed h word hword => ?_
  obtain ⟨-, -, hfixed⟩ := exists_match_of_renaming h
  exact fixed_eq_iff (fixes_of_fixedName? hfixed) (exists_startsName hr h)
    (plain_of_mem_keywords r hr word hword)

theorem fixed_eq_keyword_iff_newFunction :
    JavaScript.naming ∈ builtin ∧ "new".toList ∈ JavaScript.naming.keywords ∧
      (JavaScript.naming.rule.run ["function new_() \x7b".toList]).map
          (·.map fun d => (d.message, d.replacement)) =
        .ok [("Function name 'new_' should use camelCase".toList,
          some "function new() \x7b".toList)] ∧
      JavaScript.naming.HoldsOfReports fun t declared fixed =>
        ∀ word ∈ JavaScript.naming.keywords, fixed = word ↔ t.convention.holds word = true ∧
          ∃ (other : Convention) (back : Text),
            (∀ c ∈ back, isWordPart c = false) ∧ declared = other.spell word ++ back :=
  ⟨by simp [builtin], by decide, by decide +kernel, fixed_eq_keyword_iff (by simp [builtin])⟩

/-- No keyword is in Pascal case, so this language is given none. -/
theorem fixed_notMem_keywords_csharp :
    CSharp.naming.HoldsOfReports fun _ _ fixed => fixed ∉ CSharp.naming.keywords := by
  have hr : CSharp.naming ∈ builtin := by simp [builtin]
  have hnone : ∀ t ∈ CSharp.naming.targets, ∀ word ∈ CSharp.naming.keywords,
      t.convention.holds word = false := by decide +kernel
  refine holdsOfReports_of_renaming fun line t declared fixed h hmem => ?_
  obtain ⟨ht, -, hfixed⟩ := exists_match_of_renaming h
  obtain ⟨hholds, -⟩ := (fixed_eq_iff (fixes_of_fixedName? hfixed) (exists_startsName hr h)
    (plain_of_mem_keywords _ hr fixed hmem)).mp rfl
  rw [hnone t ht fixed hmem] at hholds
  cases hholds

end Keywords

section Letters

def isAlphanumeric (c : Char) : Bool := isWordChar c && c != '_'

def letters (t : Text) : Text := t.filter isAlphanumeric

theorem isAlphanumeric_of_isWordPart {c : Char} (h : isWordPart c = true) :
    isAlphanumeric c = true := by
  have hne : c ≠ '_' := by
    rintro rfl
    exact absurd h (by decide)
  rw [isAlphanumeric, bne_iff_ne.mpr hne, Bool.and_true]
  rcases Bool.or_eq_true_iff.mp h with hletter | hdecimal
  · exact isWordChar_of_nameStart (by rw [hletter, Bool.true_or])
  · exact isWordChar_of_isDecimal hdecimal

theorem foldChar_ne_nil (c : Char) : Text.foldChar c ≠ [] := by
  have hsequences : ∀ entry ∈ foldSequences, entry.2 ≠ [] := by decide +kernel
  unfold Text.foldChar
  split
  · exact List.cons_ne_nil _ _
  · split
    · rename_i ns hns
      obtain ⟨before, after, hentries, -⟩ := List.lookup_eq_some_iff.mp hns
      simpa using hsequences (c.toNat, ns) (by simp [hentries])
    · split
      · exact List.cons_ne_nil _ _
      · split_ifs <;> exact List.cons_ne_nil _ _

theorem fold_filter_eq_iff {p : Char → Bool} {t : Text} :
    Text.fold (t.filter p) = Text.fold t ↔ ∀ c ∈ t, p c = true := by
  constructor
  · intro h
    induction t with
    | nil => exact List.forall_mem_nil _
    | cons c t ih =>
        by_cases hc : p c = true
        · rw [List.filter_cons_of_pos hc] at h
          exact List.forall_mem_cons.mpr ⟨hc, ih (List.append_cancel_left h)⟩
        · rw [List.filter_cons_of_neg hc] at h
          have hshorter : (Text.fold (t.filter p)).length ≤ (Text.fold t).length :=
            (List.filter_sublist.flatMap _).length_le
          have hlength := congrArg List.length h
          have hpos := List.length_pos_iff.mpr (foldChar_ne_nil c)
          change _ = (Text.foldChar c ++ Text.fold t).length at hlength
          rw [List.length_append] at hlength
          omega
  · intro h
    rw [List.filter_eq_self.mpr h]

theorem letters_fixed (hfixes : r.Fixes t declared fixed) :
    letters fixed = (t.convention.convert (dropUnderscores declared)).filter isWordPart := by
  rw [hfixes.eq, letters, List.filter_append, Identifier.filter_leadingUnderscores (by decide),
    List.nil_append]
  refine List.filter_congr fun c hc => ?_
  rcases Identifier.isWordPart_or_eq_of_mem_convert hc with hpart | rfl
  · rw [hpart, isAlphanumeric_of_isWordPart hpart]
  · decide

theorem fold_letters_fixed (hfixes : r.Fixes t declared fixed) :
    Text.fold (letters fixed) = Text.fold (declared.filter isWordPart) := by
  rw [letters_fixed hfixes, (Identifier.recases_convert _ _).fold_eq,
    Identifier.filter_dropUnderscores (by decide)]

/-- A new name has the ASCII letters and decimal digits of the old one, in their order and up to
letter case, and no other letter or digit. So nothing is lost exactly if the old name has no other
ones. -/
theorem fold_letters_fixed_iff (r : NamingConvention) :
    r.HoldsOfReports fun _ declared fixed =>
      Text.fold (letters fixed) = Text.fold (declared.filter isWordPart) ∧
        (Text.fold (letters fixed) = Text.fold (letters declared) ↔
          ∀ c ∈ letters declared, isAsciiLetter c = true ∨ isDecimal c = true) := by
  refine holdsOfReports_of_renaming fun line t declared fixed h => ?_
  obtain ⟨-, -, hfixed⟩ := exists_match_of_renaming h
  have hfold := fold_letters_fixed (fixes_of_fixedName? hfixed)
  have hparts : declared.filter isWordPart = (letters declared).filter isWordPart := by
    rw [letters, List.filter_filter]
    refine List.filter_congr fun c _ => ?_
    cases hpart : isWordPart c with
    | false => rfl
    | true => rw [isAlphanumeric_of_isWordPart hpart]; rfl
  refine ⟨hfold, ?_⟩
  rw [hfold, hparts, fold_filter_eq_iff]
  simp only [isWordPart, Bool.or_eq_true]

example : (Python.naming.rule.run ["class größe:".toList]).map
    (·.map fun d => (d.message, d.replacement)) =
      .ok [("Class name 'größe' should use PascalCase".toList, some "class GrE:".toList)] := by
  decide +kernel

end Letters

end NamingConvention

end LineLint
