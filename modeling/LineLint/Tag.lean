import LineLint.LetterCase
import LineLint.PatternSearch

/-!
# Tags of a line

Markup tags are found line by line, with quoted attribute values taken as a whole. Comments are
blanked before, over all lines, so that every position stays what it was.
-/

namespace LineLint

structure Attribute where
  name : Text
  start : Nat
  /-- The value with its quotes. -/
  value : Option Capture := none

structure Tag where
  name : Text
  start : Nat
  stop : Nat
  nameStart : Nat
  isClosing : Bool
  isSelfClosing : Bool
  attributes : List Attribute

namespace Tag

def lowerName (t : Tag) : Text := t.name.lower

/-- The position right behind the name. -/
def nameStop (t : Tag) : Nat := t.nameStart + t.name.length

/-- The first attribute with a name, in any letter case. -/
def attribute? (t : Tag) (name : Text) : Option Attribute :=
  t.attributes.find? fun a => a.name.lower == name

def tagName : Pattern :=
  .one isAsciiLetter ++ .star (.one fun c => isWordChar c || c == '-')

def quotedValue : Pattern :=
  (.char '"' ++ .star (.noneOf "\"") ++ .char '"') |||
    (.char '\'' ++ .star (.noneOf "'") ++ .char '\'')

def pattern : Pattern :=
  .char '<' ++ .group "slash" (.opt (.char '/')) ++ .group "name" tagName ++
    .group "attributes" (.lazyStar (.noneOf ">\"'" ||| quotedValue)) ++
    .group "end" (.opt (.char '/')) ++ .char '>'

def isAttributeChar (c : Char) : Bool :=
  !isBlank c && !(['"', '\'', '<', '>', '/', '='].contains c)

def isPlainValueChar (c : Char) : Bool :=
  !isBlank c && !(['"', '\'', '=', '<', '>', '`'].contains c)

def attributePattern : Pattern :=
  .group "name" (.plus (.one isAttributeChar)) ++
    .opt (.blanks ++ .char '=' ++ .blanks ++
      .group "value" (quotedValue ||| .plus (.one isPlainValueChar)))

/-- The attribute of a match in a text that starts at `offset`. -/
def attributeOf (offset : Nat) (m : Match) : Attribute where
  name := m.text "name"
  start := offset + m.startOf "name"
  value := (m.capture? "value").map fun c => { c with start := offset + c.start }

def ofMatch (m : Match) : Tag where
  name := m.text "name"
  start := m.start
  stop := m.stop
  nameStart := m.startOf "name"
  isClosing := m.text "slash" == ['/']
  isSelfClosing := m.text "end" == ['/']
  attributes :=
    (attributePattern.findAll (m.text "attributes")).map (attributeOf (m.startOf "attributes"))

/-- The tags of a line, from left to right. -/
def all (line : Text) : List Tag := (pattern.findAll line).map ofMatch

end Tag

namespace MarkupComment

/-- Blanks the comments of a line, which may start inside one; also tells how the line ends. -/
def blankLine : Bool → Text → Text × Bool
  | inside, [] => ([], inside)
  | false, '<' :: '!' :: '-' :: '-' :: rest =>
      let (t, inside) := blankLine true rest
      (' ' :: ' ' :: ' ' :: ' ' :: t, inside)
  | false, c :: rest =>
      let (t, inside) := blankLine false rest
      (c :: t, inside)
  | true, '-' :: '-' :: '>' :: rest =>
      let (t, inside) := blankLine false rest
      (' ' :: ' ' :: ' ' :: t, inside)
  | true, _ :: rest =>
      let (t, inside) := blankLine true rest
      (' ' :: t, inside)

def blankFrom (inside : Bool) : List Text → List Text
  | [] => []
  | line :: rest =>
      let (t, inside) := blankLine inside line
      t :: blankFrom inside rest

/-- The lines with a space for each character of a comment. -/
def blank (lines : List Text) : List Text := blankFrom false lines

end MarkupComment

end LineLint
