import LineLint.FirstMatch

/-!
# Searching with patterns

A match is a start, a stop and the groups between them. A search takes the first place with a
match, and `findAll` goes on behind each match, so that no two matches overlap. An empty match is
followed by a longer one at the same place, if there is one.
-/

namespace LineLint

structure Match where
  start : Nat
  stop : Nat
  groups : List (String × Capture)

namespace Match

def capture? (m : Match) (name : String) : Option Capture := m.groups.lookup name

/-- The text of a group, empty when the group took no part. -/
def text (m : Match) (name : String) : Text := ((m.capture? name).map (·.text)).getD []

def startOf (m : Match) (name : String) : Nat := ((m.capture? name).map (·.start)).getD 0

end Match

namespace Pattern

def matchOf (c d : Cursor) : Match := ⟨c.position, d.position, d.groups⟩

/-- The preferred match at a cursor. -/
def first? (p : Pattern) (c : Cursor) : Option Match :=
  p.firstWith c fun d => some (matchOf c d)

theorem first?_eq_head? (p : Pattern) (c : Cursor) :
    p.first? c = (p.results c).head?.map (matchOf c) := by
  rw [first?, firstWith_eq_findSome?]
  cases p.results c with
  | nil => rfl
  | cons d ds => rfl

/-- The preferred match at a cursor that consumes something. -/
def firstProper? (p : Pattern) (c : Cursor) : Option Match :=
  p.firstWith c fun d => if c.position < d.position then some (matchOf c d) else none

def matchStart? (p : Pattern) (t : Text) : Option Match := p.first? (.atStart t)

def matchesStart (p : Pattern) (t : Text) : Bool := (p.matchStart? t).isSome

def searchFrom (p : Pattern) (position : Nat) (previous : Option Char) : Text → Option Match
  | [] => p.first? ⟨position, previous, [], []⟩
  | x :: r =>
      match p.first? ⟨position, previous, x :: r, []⟩ with
      | some m => some m
      | none => searchFrom p (position + 1) (some x) r

/-- The first match in a text. -/
def search? (p : Pattern) (t : Text) : Option Match := p.searchFrom 0 none t

def occursIn (p : Pattern) (t : Text) : Bool := (p.search? t).isSome

/-- The matches that start at a cursor: the preferred one and, if it is empty, a proper one. -/
def matchesAt (p : Pattern) (c : Cursor) : List Match :=
  match p.first? c with
  | none => []
  | some m => if m.start < m.stop then [m] else m :: (p.firstProper? c).toList

/-- The matches from a position on; before `resume` the text is taken up by an earlier match. -/
def findFrom (p : Pattern) (position resume : Nat) (previous : Option Char) : Text → List Match
  | [] => if position < resume then [] else p.matchesAt ⟨position, previous, [], []⟩
  | x :: r =>
      if position < resume then findFrom p (position + 1) resume (some x) r
      else
        let found := p.matchesAt ⟨position, previous, x :: r, []⟩
        let resume := (found.getLast?.map (·.stop)).getD position
        found ++ findFrom p (position + 1) resume (some x) r

/-- All matches in a text, from left to right. -/
def findAll (p : Pattern) (t : Text) : List Match := p.findFrom 0 0 none t

end Pattern

end LineLint
