import LineLint.Proofs.Computation
import LineLint.Registry
import Mathlib.Data.List.Basic

/-!
# Looking up registered analyzers

A registry is made of analyzers with distinct identifiers. An analyzer is looked up by its
identifier or its display name in any letter case, and the first one that answers is taken. So one
is found by its own identifier unless an analyzer before it answers to that identifier too.
-/

namespace LineLint

namespace Registry

variable {analyzers before after : List Analyzer} {a b : Analyzer} {r : Registry} {wanted : Text}

/-- An analyzer that answers to the identifier of another one, by either of its names. -/
def Shadows (b a : Analyzer) : Prop :=
  Text.fold b.id.toList = Text.fold a.id.toList ∨
    Text.fold b.displayName.toList = Text.fold a.id.toList

theorem answersTo_fold_iff : answersTo b (Text.fold a.id.toList) = true ↔ Shadows b a := by
  rw [answersTo, Bool.or_eq_true, beq_iff_eq, beq_iff_eq, Shadows]

theorem validateFrom_eq_ok_iff {seen : List String} :
    validateFrom seen analyzers = .ok () ↔
      (∀ a ∈ analyzers, a.id ∉ seen) ∧ (analyzers.map Analyzer.id).Nodup ∧
        ∀ a ∈ analyzers, Rule.validateAll a.rules = .ok () := by
  induction analyzers generalizing seen with
  | nil => simp [validateFrom]
  | cons a rest ih =>
      have hrest : (∀ b ∈ rest, b.id ∉ a.id :: seen) ↔
          a.id ∉ rest.map Analyzer.id ∧ ∀ b ∈ rest, b.id ∉ seen := by
        simp only [List.mem_cons, not_or, List.mem_map, not_exists, not_and, forall_and]
      rw [validateFrom, List.map_cons, List.nodup_cons, List.forall_mem_cons, List.forall_mem_cons]
      by_cases hseen : a.id ∈ seen
      · simp [hseen]
      · rw [if_neg (by simpa using hseen), bind_eq_ok_iff]
        simp only [ih, hrest, hseen]
        constructor
        · rintro ⟨⟨⟩, hrules, ⟨hnot, hothers⟩, hdistinct, hvalid⟩
          exact ⟨⟨not_false, hothers⟩, ⟨hnot, hdistinct⟩, hrules, hvalid⟩
        · rintro ⟨⟨-, hothers⟩, ⟨hnot, hdistinct⟩, hrules, hvalid⟩
          exact ⟨(), hrules, ⟨hnot, hothers⟩, hdistinct, hvalid⟩

/-- A registry is made of the given analyzers, if their identifiers are distinct and each of their
rule sets is valid. -/
theorem ofAnalyzers_eq_ok_iff :
    ofAnalyzers analyzers = .ok r ↔
      r = ⟨analyzers⟩ ∧ (analyzers.map Analyzer.id).Nodup ∧
        ∀ a ∈ analyzers, Rule.validateAll a.rules = .ok () := by
  have hvalid : validateFrom [] analyzers = .ok () ↔ (analyzers.map Analyzer.id).Nodup ∧
      ∀ a ∈ analyzers, Rule.validateAll a.rules = .ok () := by
    rw [validateFrom_eq_ok_iff]
    exact and_iff_right fun _ _ => List.not_mem_nil
  rw [ofAnalyzers, bind_eq_ok_iff, ← hvalid]
  constructor
  · rintro ⟨⟨⟩, hfrom, hsame⟩
    exact ⟨(Except.ok.inj hsame).symm, hfrom⟩
  · rintro ⟨rfl, hfrom⟩
    exact ⟨(), hfrom, rfl⟩

theorem get_id_eq :
    (Registry.mk (before ++ a :: after)).get a.id.toList =
      .ok ((before.find? fun b => answersTo b (Text.fold a.id.toList)).getD a) := by
  have hown : (a :: after).find? (fun b => answersTo b (Text.fold a.id.toList)) = some a :=
    List.find?_cons_of_pos (answersTo_fold_iff.mpr (Or.inl rfl))
  rw [get, List.find?_append, hown, Option.or_some]

/-- The identifier of an analyzer of a registry leads to that analyzer, unless one before it answers
to the identifier: then it leads to such a one. -/
theorem exists_get_id_eq_ok (haccepted : ofAnalyzers analyzers = .ok r)
    (hsplit : analyzers = before ++ a :: after) :
    ∃ b, r.get a.id.toList = .ok b ∧ (b = a ∨ b ∈ before ∧ Shadows b a) ∧
      (b = a ↔ ∀ c ∈ before, ¬Shadows c a) := by
  obtain ⟨rfl, hdistinct, -⟩ := ofAnalyzers_eq_ok_iff.mp haccepted
  subst hsplit
  refine ⟨_, get_id_eq, ?_⟩
  cases hfound : before.find? fun b => answersTo b (Text.fold a.id.toList) with
  | none =>
      have hnone : ∀ c ∈ before, ¬Shadows c a := fun c hc hshadows =>
        List.find?_eq_none.mp hfound c hc (answersTo_fold_iff.mpr hshadows)
      exact ⟨Or.inl rfl, iff_of_true rfl hnone⟩
  | some b =>
      have hb : b ∈ before := List.mem_of_find?_eq_some hfound
      have hanswers : answersTo b (Text.fold a.id.toList) = true := by
        simpa using List.find?_some hfound
      have hshadows : Shadows b a := answersTo_fold_iff.mp hanswers
      have hne : b ≠ a := by
        rintro rfl
        rw [List.map_append, List.map_cons] at hdistinct
        exact (List.nodup_append.mp hdistinct).2.2 _ (List.mem_map_of_mem hb) _
          List.mem_cons_self rfl
      exact ⟨Or.inr ⟨hb, hshadows⟩, iff_of_false hne fun hnone => hnone b hb hshadows⟩

def capitalizedJava : Analyzer :=
  ⟨{ Java.profile with id := "PYTHON", displayName := "Capitals" }, Java.rules⟩

/-- The identifiers differ, but the analyzer for Python answers to both. -/
theorem exists_get_id_eq_ok_capitalizedJava :
    ∃ r, ofAnalyzers [⟨Python.profile, Python.rules⟩, capitalizedJava] = .ok r ∧
      ∃ b, r.get "PYTHON".toList = .ok b ∧ b.id = "python" := by
  have haccepted : ofAnalyzers [⟨Python.profile, Python.rules⟩, capitalizedJava] =
      .ok ⟨[⟨Python.profile, Python.rules⟩, capitalizedJava]⟩ :=
    ofAnalyzers_eq_ok_iff.mpr ⟨rfl, by decide, List.forall_mem_cons.mpr
      ⟨by rfl, List.forall_mem_singleton.mpr (by rfl)⟩⟩
  have hsplit : [⟨Python.profile, Python.rules⟩, capitalizedJava] =
      [⟨Python.profile, Python.rules⟩] ++ capitalizedJava :: [] := rfl
  obtain ⟨b, hget, hfound, hself⟩ := exists_get_id_eq_ok haccepted hsplit
  refine ⟨_, haccepted, b, hget, ?_⟩
  rcases hfound with hsame | ⟨hb, -⟩
  · exact absurd (Or.inl (by decide)) (hself.mp hsame _ (List.mem_singleton_self _))
  · rw [List.mem_singleton.mp hb]
    rfl

end Registry

end LineLint
