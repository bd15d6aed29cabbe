import LineLint.Blank
import LineLint.LetterCase

/-!
# Patterns

Search patterns over text: character classes, sequences, ordered choice, repetition, named groups,
repeats of an earlier group, and conditions on the place between two characters. A pattern is
matched at a cursor, and `results` lists every way to do so in order of preference, so that the
first entry is the match that backtracking finds.
-/

namespace LineLint

/-- A condition on a place in the text, from the character before it and the text after it. -/
inductive Edge where
  | textStart
  | lineStart
  /-- The end of the text, or the place before a newline that ends it. -/
  | textEnd
  | lineEnd
  /-- Between a word character and none. -/
  | word
  | notAfter (p : Char → Bool)
  | before (p : Char → Bool)
  | notBefore (p : Char → Bool)

namespace Edge

def holds (previous : Option Char) (rest : Text) : Edge → Bool
  | textStart => previous.isNone
  | lineStart => previous.isNone || previous == some '\n'
  | textEnd => rest.isEmpty || rest == ['\n']
  | lineEnd => rest.isEmpty || rest.head? == some '\n'
  | word => previous.any isWordChar != rest.head?.any isWordChar
  | notAfter p => !previous.any p
  | before p => rest.head?.any p
  | notBefore p => !rest.head?.any p

end Edge

inductive Pattern where
  | empty
  | one (p : Char → Bool)
  | seq (first second : Pattern)
  /-- Ordered choice: the first pattern is preferred. -/
  | alt (first second : Pattern)
  /-- Repetition, at most `limit` times; a greedy one prefers more rounds. -/
  | many (greedy : Bool) (limit : Option Nat) (body : Pattern)
  | group (name : String) (body : Pattern)
  /-- The text of an earlier group once more, up to a relation between characters. -/
  | again (name : String) (same : Char → Char → Bool)
  | edge (e : Edge)

/-- A part of the text that a group matched, as the text from its start on and its length. -/
structure Capture where
  start : Nat
  rest : Text
  length : Nat

namespace Capture

def text (c : Capture) : Text := c.rest.take c.length

def stop (c : Capture) : Nat := c.start + c.length

end Capture

/-- A place in the text, with the groups matched on the way to it, the latest first. -/
structure Cursor where
  position : Nat
  previous : Option Char
  rest : Text
  groups : List (String × Capture)

namespace Cursor

def atStart (t : Text) : Cursor := ⟨0, none, t, []⟩

def capture? (c : Cursor) (name : String) : Option Capture := c.groups.lookup name

/-- Steps over one character of a class. -/
def step? (c : Cursor) (p : Char → Bool) : Option Cursor :=
  match c.rest with
  | [] => none
  | x :: r => if p x then some ⟨c.position + 1, some x, r, c.groups⟩ else none

/-- Steps over a text, character by character. -/
def stepText? (same : Char → Char → Bool) : Text → Cursor → Option Cursor
  | [], c => some c
  | x :: t, c => (c.step? (same x)).bind (stepText? same t)

/-- The cursor with the text between `from` and itself recorded under a name. -/
def record (c : Cursor) (name : String) (start : Cursor) : Cursor :=
  { c with
    groups := (name, ⟨start.position, start.rest, c.position - start.position⟩) :: c.groups }

end Cursor

namespace Pattern

/-- Rounds of a step, at most `rounds` of them; a round that consumes nothing is not repeated. -/
def repeated (greedy : Bool) (step : Cursor → List Cursor) : Nat → Cursor → List Cursor
  | 0, c => [c]
  | rounds + 1, c =>
      let further :=
        ((step c).filter fun d => c.position < d.position).flatMap (repeated greedy step rounds)
      if greedy then further ++ [c] else c :: further

/-- Every way to match a pattern at a cursor, the preferred ones first. -/
def results (p : Pattern) (c : Cursor) : List Cursor :=
  match p with
  | empty => [c]
  | one p => (c.step? p).toList
  | seq first second => (results first c).flatMap (results second)
  | alt first second => results first c ++ results second c
  | many greedy limit body => repeated greedy (results body) (limit.getD c.rest.length) c
  | group name body => (results body c).map fun d => d.record name c
  | again name same =>
      match c.capture? name with
      | some captured => (Cursor.stepText? same captured.text c).toList
      | none => []
  | edge e => if e.holds c.previous c.rest then [c] else []

instance : Append Pattern := ⟨seq⟩

instance : OrOp Pattern := ⟨alt⟩

def char (c : Char) : Pattern := one (· == c)

def oneOf (s : String) : Pattern :=
  let cs := s.toList
  one fun c => cs.contains c

def noneOf (s : String) : Pattern :=
  let cs := s.toList
  one fun c => !cs.contains c

def textPattern (t : Text) : Pattern := t.foldr (fun c p => seq (char c) p) empty

def text (s : String) : Pattern := textPattern s.toList

/-- A text of ASCII characters in any letter case. -/
def caseless (s : String) : Pattern :=
  s.toList.foldr (fun x p => seq (one fun c => caselessChar c == caselessChar x) p) empty

def choice : List Pattern → Pattern
  | [] => one fun _ => false
  | [p] => p
  | p :: ps => alt p (choice ps)

/-- One of several texts, the earlier ones preferred. -/
def words (ws : List String) : Pattern := choice (ws.map text)

def star (p : Pattern) : Pattern := many true none p

def plus (p : Pattern) : Pattern := seq p (star p)

def lazyStar (p : Pattern) : Pattern := many false none p

def upTo (n : Nat) (p : Pattern) : Pattern := many true (some n) p

def opt (p : Pattern) : Pattern := alt p empty

def blank : Pattern := one isBlank

def blanks : Pattern := star blank

def blanks1 : Pattern := plus blank

def nonBlank : Pattern := one fun c => !isBlank c

def wordChar : Pattern := one isWordChar

def decimal : Pattern := one isDecimal

/-- A letter or underscore of ASCII, which starts a name. -/
def nameStart : Pattern := one fun c => isAsciiLetter c || c == '_'

/-- A name: an ASCII letter or underscore, then word characters. -/
def name : Pattern := nameStart ++ star wordChar

/-- A name that may hold the dollar sign. -/
def dollarName : Pattern :=
  (one fun c => isAsciiLetter c || c == '_' || c == '$') ++
    star (one fun c => isWordChar c || c == '$')

def start : Pattern := edge .textStart

def lineStart : Pattern := edge .lineStart

def stop : Pattern := edge .textEnd

def lineStop : Pattern := edge .lineEnd

def wordEdge : Pattern := edge .word

def notAfter (p : Char → Bool) : Pattern := edge (.notAfter p)

def notAfterAny (s : String) : Pattern := edge (.notAfter fun c => s.toList.contains c)

def beforeAny (s : String) : Pattern := edge (.before fun c => s.toList.contains c)

def notBefore (p : Char → Bool) : Pattern := edge (.notBefore p)

def notBeforeAny (s : String) : Pattern := edge (.notBefore fun c => s.toList.contains c)

end Pattern

end LineLint
