import LineLint.Fault
import LineLint.LiteralMask

/-!
# Scanning over lines

What a check has to know beyond one line: the nearest line that is not blank, whether a line goes
on with the statement before it, and the lines that belong to a scope in braces. Brackets and
braces count only in masked code.
-/

namespace LineLint

namespace LineScan

/-- The offset of the first line that is not blank. -/
def firstCode? : List Text → Option Nat
  | [] => none
  | line :: rest => if line.allBlank then (firstCode? rest).map (· + 1) else some 0

/-- The first line that is not blank, from `start` on. -/
def nextCode? (lines : List Text) (start : Nat) : Option Nat :=
  (firstCode? (lines.drop start)).map (· + start)

/-- The last line that is not blank, before `stop`. -/
def lastCode? (lines : List Text) (stop : Nat) : Option Nat :=
  (firstCode? (lines.take stop).reverse).map fun offset => min stop lines.length - 1 - offset

/-- Open minus closed round and square brackets. -/
def bracketBalance (masked : Text) : Int :=
  Int.ofNat (masked.count '(') + Int.ofNat (masked.count '[') - Int.ofNat (masked.count ')') -
    Int.ofNat (masked.count ']')

def closingParenFrom? (depth : Int) : Text → Option Nat
  | [] => none
  | c :: rest =>
      if c == '(' then (closingParenFrom? (depth + 1) rest).map (· + 1)
      else if c == ')' then
        if depth == 1 then some 0 else (closingParenFrom? (depth - 1) rest).map (· + 1)
      else (closingParenFrom? depth rest).map (· + 1)

/-- The position of the parenthesis that closes the one at position `opening`. -/
def closingParen? (t : Text) (opening : Nat) : Option Nat :=
  (closingParenFrom? 0 (t.drop opening)).map (· + opening)

def continuedFrom (style : LiteralStyle) (depth : Int) (backslash : Bool) :
    List Text → List Bool
  | [] => []
  | line :: rest =>
      let masked := style.codeMask line
      (0 < depth || backslash) ::
        continuedFrom style (max (depth + bracketBalance masked) 0)
          (masked.getLast? == some '\\') rest

/-- For each line, whether it starts inside an open bracket or after a backslash that ends a line.
-/
def continued (style : LiteralStyle) (lines : List Text) : List Bool :=
  continuedFrom style 0 false lines

/-- The brace depth after some characters, whether a brace has been opened, and whether the scope
that it opened was closed again. -/
structure BraceState where
  depth : Int := 0
  isOpen : Bool := false
  isClosed : Bool := false

def afterBraces (s : BraceState) : Text → BraceState
  | [] => s
  | c :: rest =>
      if c == '{' then afterBraces { s with depth := s.depth + 1, isOpen := true } rest
      else if c == '}' then
        let s := { s with depth := s.depth - 1 }
        if s.isOpen && s.depth == 0 then { s with isClosed := true } else afterBraces s rest
      else afterBraces s rest

/-- The lines of a scope as offsets from its first line, each with the brace depth before it, and
the offset of the line that closes the scope. -/
structure BraceScope where
  visited : List (Nat × Int)
  close : Option Nat

def scopeFrom (style : LiteralStyle) (offset : Nat) (s : BraceState) : List Text → BraceScope
  | [] => ⟨[], none⟩
  | line :: rest =>
      let masked := style.codeMask line
      let next := afterBraces s masked
      if next.isClosed then ⟨[(offset, s.depth)], some offset⟩
      else if !next.isOpen && 0 < offset && !masked.allBlank then ⟨[(offset, s.depth)], none⟩
      else
        let scope := scopeFrom style (offset + 1) next rest
        { scope with visited := (offset, s.depth) :: scope.visited }

/-- The scope whose first brace stands on the first of the lines or on the next line with code. -/
def braceScope (style : LiteralStyle) (lines : List Text) : BraceScope :=
  scopeFrom style 0 {} lines

/-- How many lines a scope may have. -/
def scopeWindow : Nat := 200

/-- The scope that starts on the line with the given index. -/
def scopeAt (style : LiteralStyle) (lines : List Text) (index : Nat) : BraceScope :=
  braceScope style ((lines.drop index).take scopeWindow)

/-- What is wrong with an index out of range: one beyond 63 bits is no index at all. -/
def indexFault (start : Int) (outOfRange : Fault) : Fault :=
  if start < -9223372036854775808 || 9223372036854775808 ≤ start then .indexRange else outOfRange

/-- The entries met on counting up from an index. A negative index counts from the end, and the
count goes on at 0 after the last entry. -/
def countingUp {α : Type} (xs : List α) (start : Int) (outOfRange : Fault) :
    Except Fault (List α) :=
  if 0 ≤ start then .ok (xs.drop start.toNat)
  else if Int.ofNat xs.length < -start then .error (indexFault start outOfRange)
  else .ok (xs.drop (xs.length - start.natAbs) ++ xs)

/-- The first line that is not blank, counting up from an index. -/
def codeFrom? (lines : List Text) (start : Int) : Except Fault (Option Int) := do
  let counted ← countingUp lines start .listIndex
  return (firstCode? counted).map fun offset => start + Int.ofNat offset

/-- The first line that is not blank, counting down from an index to 0. -/
def codeBackFrom? (lines : List Text) (start : Int) : Except Fault (Option Nat) :=
  if start < 0 then .ok none
  else if Int.ofNat lines.length ≤ start then .error (indexFault start .listIndex)
  else .ok (lastCode? lines (start.toNat + 1))

/-- The closing parenthesis that is met on counting up from the index of the one it closes. -/
def parenClosing? (t : Text) (opening : Int) : Except Fault (Option Int) := do
  let counted ← countingUp t opening .textIndex
  return (closingParenFrom? 0 counted).map fun offset => opening + Int.ofNat offset

/-- The scope that starts at an index and has at most so many lines, as offsets from that index. -/
def scopeFromIndex (style : LiteralStyle) (lines : List Text) (start window : Int) :
    Except Fault BraceScope := do
  if window ≤ 0 then return ⟨[], none⟩
  else
    let counted ← countingUp lines start .listIndex
    return braceScope style (counted.take window.toNat)

end LineScan

/-- The start of a control structure. -/
def controlKeyword : Pattern :=
  .start ++ .opt (.text "else" ++ .blanks1) ++
    .group "keyword" (.words ["if", "for", "foreach", "while", "switch"]) ++ .wordEdge

end LineLint
