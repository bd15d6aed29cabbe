import LineLint.Blank
import LineLint.Hunk

/-!
# Composing revisions of one line

A revision is a new form of a whole line. Several revisions of a line are merged by their hunks
against the line without its indentation. A revision that clashes with an accepted one is rejected
as a whole. An inserted run of blanks is dropped where a replacement that touches it has a blank on
that side already.
-/

namespace LineLint

/-- The hunks accepted so far, in order of acceptance, and the positions of the rejected revisions.
-/
structure Composition where
  accepted : List Hunk := []
  rejected : List Nat := []

namespace Composition

/-- Adds those hunks that are not there yet. -/
def extend (accepted new : List Hunk) : List Hunk :=
  new.foldl (fun hs h => if hs.contains h then hs else hs ++ [h]) accepted

def accept (base : Text) (c : Composition) (position : Nat) (revision : Text) : Composition :=
  let hunks := Hunk.between base revision.dropIndentation
  if hunks.any fun h => c.accepted.any fun k => h.conflicts k then
    { c with rejected := c.rejected ++ [position] }
  else { c with accepted := extend c.accepted hunks }

def acceptFrom (base : Text) (c : Composition) (position : Nat) : List Text → Composition
  | [] => c
  | revision :: rest => acceptFrom base (c.accept base position revision) (position + 1) rest

def ofRevisions (base : Text) (revisions : List Text) : Composition :=
  acceptFrom base {} 0 revisions

/-- A blank insertion next to a replacement that is blank on the side it touches. -/
def absorbed (replacing : List Hunk) (h : Hunk) : Bool :=
  h.isInsert && h.text.allBlank && replacing.any fun k =>
    (k.start == h.start && k.text.head?.any isBlank) ||
      (k.stop == h.start && k.text.getLast?.any isBlank)

/-- Insertions come before the replacement that starts at the same position. -/
def before (h k : Hunk) : Bool :=
  h.start < k.start || (h.start == k.start && (h.isInsert || !k.isInsert))

/-- Carries out hunks, sorted by position, on the base from position `cursor` on. -/
def spell (base : Text) (cursor : Nat) : List Hunk → Text
  | [] => base.drop cursor
  | h :: hs =>
      let gap := if cursor < h.start then Text.slice base cursor h.start else []
      gap ++ h.text ++ spell base (max (max cursor h.start) h.stop) hs

def merged (base : Text) (c : Composition) : Text :=
  let replacing := c.accepted.filter fun h => !h.isInsert
  let kept := c.accepted.filter fun h => !absorbed replacing h
  spell base 0 (kept.mergeSort before)

end Composition

/-- One line for several revisions of `line`, without its indentation, and the positions of the
revisions that were rejected. -/
def composeRevisions (line : Text) (revisions : List Text) : Text × List Nat :=
  let base := line.dropIndentation
  let c := Composition.ofRevisions base revisions
  (c.merged base, c.rejected)

end LineLint
