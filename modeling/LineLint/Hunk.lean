import LineLint.Text

/-!
# Differences between two lines

Two texts are compared by their longest common block, the earliest in the first text and then the
earliest in the second, and again on both sides of it. A hunk is a maximal part of the first text
that lies in no common block, with the part of the second text that stands in its place.
-/

namespace LineLint

def commonLength : Text → Text → Nat
  | a :: s, b :: t => if a == b then commonLength s t + 1 else 0
  | _, _ => 0

/-- A block that two texts have in common: where it starts in each, and its size. -/
structure CommonBlock where
  first : Nat
  second : Nat
  size : Nat

namespace CommonBlock

def larger (best new : CommonBlock) : CommonBlock := if best.size < new.size then new else best

/-- The best of the blocks that start with the first character of `a`. -/
def longestHere (first second : Nat) (a : Text) (best : CommonBlock) : Text → CommonBlock
  | [] => best
  | c :: b =>
      let best := best.larger ⟨first, second, commonLength a (c :: b)⟩
      longestHere first (second + 1) a best b

def longestFrom (first : Nat) (best : CommonBlock) (b : Text) : Text → CommonBlock
  | [] => best
  | c :: a => longestFrom (first + 1) (longestHere first 0 (c :: a) best b) b a

/-- The longest common block of two texts, of size 0 if they share no character. -/
def longest (a b : Text) : CommonBlock := longestFrom 0 ⟨0, 0, 0⟩ b a

end CommonBlock

/-- The part of a line from `start` to `stop`, and the text that takes its place. -/
structure Hunk where
  start : Nat
  stop : Nat
  text : Text
  deriving DecidableEq

namespace Hunk

def isInsert (h : Hunk) : Bool := h.start == h.stop

/-- The hunks of `a` against `b`, where `a` stands at `offset` and has at most `fuel` characters.
-/
def betweenFrom : Nat → Nat → Text → Text → List Hunk
  | 0, offset, a, b => if a.isEmpty && b.isEmpty then [] else [⟨offset, offset + a.length, b⟩]
  | fuel + 1, offset, a, b =>
      let block := CommonBlock.longest a b
      if block.size == 0 then
        if a.isEmpty && b.isEmpty then [] else [⟨offset, offset + a.length, b⟩]
      else
        let stop := block.first + block.size
        betweenFrom fuel offset (a.take block.first) (b.take block.second) ++
          betweenFrom fuel (offset + stop) (a.drop stop) (b.drop (block.second + block.size))

/-- The hunks that turn `a` into `b`, from left to right. -/
def between (a b : Text) : List Hunk := betweenFrom a.length 0 a b

/-- Two different hunks clash if they cannot both be carried out: replaced parts overlap, or an
insertion lies strictly inside a replaced part. -/
def conflicts (h k : Hunk) : Bool :=
  if h == k then false
  else if h.isInsert && k.isInsert then false
  else if h.isInsert then k.start < h.start && h.start < k.stop
  else if k.isInsert then h.start < k.start && k.start < h.stop
  else h.start < k.stop && k.start < h.stop

end Hunk

end LineLint
