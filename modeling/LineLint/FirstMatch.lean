import LineLint.Pattern

/-!
# Matching in order of preference

A pattern is matched by trying its alternatives one after another and going on behind each, so that
a search stops at the first way that leads to a value. Listing all ways and taking the first that
leads to a value gives the same.
-/

namespace LineLint

namespace Pattern

/-- Rounds of a step, tried in order of preference until one leads on to a value. -/
def repeatedWith {β : Type} (greedy : Bool) (step : Cursor → (Cursor → Option β) → Option β)
    (next : Cursor → Option β) : Nat → Cursor → Option β
  | 0, c => next c
  | rounds + 1, c =>
      let further (_ : Unit) : Option β := step c fun d =>
        if c.position < d.position then repeatedWith greedy step next rounds d else none
      if greedy then
        match further () with
        | some found => some found
        | none => next c
      else
        match next c with
        | some found => some found
        | none => further ()

/-- The first value that `next` finds on the ways to match a pattern at a cursor, which are tried
in order of preference and no further than needed. -/
def firstWith {β : Type} (p : Pattern) (c : Cursor) (next : Cursor → Option β) : Option β :=
  match p with
  | empty => next c
  | one p => (c.step? p).bind next
  | seq first second => firstWith first c fun d => firstWith second d next
  | alt first second =>
      match firstWith first c next with
      | some found => some found
      | none => firstWith second c next
  | many greedy limit body =>
      repeatedWith greedy (fun d more => firstWith body d more) next (limit.getD c.rest.length) c
  | group name body => firstWith body c fun d => next (d.record name c)
  | again name same =>
      (c.capture? name).bind fun captured => (Cursor.stepText? same captured.text c).bind next
  | edge e => if e.holds c.previous c.rest then next c else none

theorem findSome?_toList {α β : Type} (o : Option α) (f : α → Option β) :
    o.toList.findSome? f = o.bind f := by
  cases o with
  | none => rfl
  | some a => simp

theorem findSome?_flatMap {α β γ : Type} (l : List α) (f : α → List β) (g : β → Option γ) :
    (l.flatMap f).findSome? g = l.findSome? fun a => (f a).findSome? g := by
  induction l with
  | nil => rfl
  | cons a l ih =>
      rw [List.flatMap_cons, List.findSome?_append, List.findSome?_cons, ih]
      cases (f a).findSome? g <;> rfl

theorem findSome?_filter {α β : Type} (l : List α) (q : α → Bool) (f : α → Option β) :
    (l.filter q).findSome? f = l.findSome? fun a => if q a then f a else none := by
  induction l with
  | nil => rfl
  | cons a l ih => by_cases h : q a <;> simp [List.findSome?_cons, h, ih]

theorem repeatedWith_eq_findSome? {β : Type} (greedy : Bool)
    (step : Cursor → (Cursor → Option β) → Option β) (list : Cursor → List Cursor)
    (h : ∀ c next, step c next = (list c).findSome? next) (next : Cursor → Option β) (rounds : Nat)
    (c : Cursor) :
    repeatedWith greedy step next rounds c = (repeated greedy list rounds c).findSome? next := by
  induction rounds generalizing c with
  | zero => simp [repeatedWith, repeated]
  | succ rounds ih =>
      have further : (step c fun d =>
          if c.position < d.position then repeatedWith greedy step next rounds d else none) =
          (((list c).filter fun d => c.position < d.position).flatMap
            (repeated greedy list rounds)).findSome? next := by
        rw [h, findSome?_flatMap, findSome?_filter]
        congr 1
        funext d
        by_cases hd : c.position < d.position <;> simp [hd, ih]
      cases greedy with
      | true =>
          simp only [repeatedWith, repeated, if_true, further, List.findSome?_append]
          cases ((((list c).filter fun d => c.position < d.position).flatMap
            (repeated true list rounds)).findSome? next) <;> simp
      | false =>
          simp only [repeatedWith, repeated, further]
          cases hn : next c <;> simp [hn]

theorem firstWith_eq_findSome? {β : Type} (p : Pattern) (c : Cursor) (next : Cursor → Option β) :
    p.firstWith c next = (p.results c).findSome? next := by
  induction p generalizing c next with
  | empty => simp [firstWith, results]
  | one p => rw [firstWith, results, findSome?_toList]
  | seq first second ihf ihs =>
      rw [firstWith, results, findSome?_flatMap, ihf]
      congr 1
      funext d
      exact ihs d next
  | alt first second ihf ihs =>
      rw [firstWith, results, List.findSome?_append, ihf, ihs]
      cases (first.results c).findSome? next <;> rfl
  | many greedy limit body ih =>
      rw [firstWith, results]
      exact repeatedWith_eq_findSome? greedy _ _ ih next _ c
  | group name body ih =>
      rw [firstWith, results, List.findSome?_map, ih]
      rfl
  | again name same =>
      rw [firstWith, results]
      cases c.capture? name with
      | none => rfl
      | some captured => rw [Option.bind_some, findSome?_toList]
  | edge e =>
      rw [firstWith, results]
      by_cases h : e.holds c.previous c.rest <;> simp [h]

end Pattern

end LineLint
