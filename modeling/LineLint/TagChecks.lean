import LineLint.Rule
import LineLint.Tag

/-!
# Checks on single tags

Letter case of tag and attribute names, quotes around attribute values, attributes that an element
must have, image sizes, and elements without content.
-/

namespace LineLint

/-- Checks each line against its tags, comments left out. -/
def eachTagLine (check : Nat → Text → List Tag → List Finding) (lines : List Text) :
    List Finding :=
  (lines.zip (MarkupComment.blank lines)).zipIdx.flatMap fun ((line, blanked), index) =>
    check index line (Tag.all blanked)

namespace TagCase

inductive NameKind where
  | tagName | attributeName
  deriving DecidableEq

def NameKind.plural : NameKind → String
  | tagName => "tags"
  | attributeName => "attributes"

/-- A name that is not in lower case, and where it stands. -/
structure Occurrence where
  kind : NameKind
  name : Text
  position : Nat

def occurrences (t : Tag) : List Occurrence :=
  let own : List Occurrence :=
    if t.name == t.lowerName then [] else [⟨.tagName, t.name, t.nameStart⟩]
  let others := if t.isClosing then [] else t.attributes.filterMap fun a =>
    if a.name == a.name.lower then none else some ⟨.attributeName, a.name, a.start⟩
  own ++ others

/-- The line with the names at some positions in lower case. -/
def lowered (line name : Text) (positions : List Nat) : Text :=
  positions.foldl (fun line p => Text.splice line p (p + name.length) name.lower) line

def check (index : Nat) (line : Text) (tags : List Tag) : List Finding :=
  let found := tags.flatMap occurrences
  (found.map fun o => (o.kind, o.name)).eraseDups.map fun (kind, name) =>
    let positions := (found.filter fun o => o.kind == kind && o.name == name).map (·.position)
    { index
      replacement := lowered line name positions
      fields := [("kind", kind.plural.toList), ("name", name)] }

def rule : Rule := .ofCheck .tagCase ⟨"htmlTagCase", "style", "policy"⟩ (eachTagLine check)

end TagCase

namespace AttributeQuotes

def booleanAttributes : List Text :=
  ["checked", "disabled", "readonly", "required", "multiple", "selected", "hidden",
   "autofocus"].map String.toList

/-- What is wrong with the quotes of a value, and the value without them. -/
def problem? (name value : Text) : Option (String × Text) :=
  match value.head? with
  | some '"' => none
  | some '\'' =>
      let inner := (value.drop 1).dropLast
      if inner.contains '"' then none else some ("uses single quotes", inner)
  | _ =>
      if booleanAttributes.contains name.lower && value.lower == name.lower then none
      else some ("missing quotes", value)

def checkAttribute (index : Nat) (line : Text) (a : Attribute) : Option Finding := do
  let value ← a.value
  let (problem, inner) ← problem? a.name value.text
  return {
    index
    replacement := Text.splice line value.start value.stop (['"'] ++ inner ++ ['"'])
    fields := [("attribute", a.name), ("problem", problem.toList)] }

def check (index : Nat) (line : Text) (tags : List Tag) : List Finding :=
  tags.flatMap fun t => t.attributes.filterMap (checkAttribute index line)

def rule : Rule :=
  .ofCheck .attributeQuotes ⟨"htmlAttributeQuotes", "style", "policy"⟩ (eachTagLine check)

end AttributeQuotes

/-- An attribute with an empty value, to be put behind a tag name. -/
def emptyAttribute (name : Text) : Text := [' '] ++ name ++ ['=', '"', '"']

namespace RequiredAttribute

def required : List (Text × List Text) :=
  [("img", ["src", "alt"]), ("a", ["href"]), ("link", ["rel", "href"]), ("form", ["action"]),
   ("input", ["type"])].map fun (tag, names) => (tag.toList, names.map String.toList)

def checkTag (index : Nat) (line : Text) (t : Tag) : List Finding :=
  if t.isClosing then []
  else ((required.lookup t.lowerName).getD []).filterMap fun name =>
    if (t.attribute? name).isSome then none
    else some {
      index
      replacement := Text.splice line t.nameStop t.nameStop (emptyAttribute name)
      fields := [("tag", t.lowerName.map upperAscii), ("attribute", name)] }

def check (index : Nat) (line : Text) (tags : List Tag) : List Finding :=
  tags.flatMap (checkTag index line)

def rule : Rule :=
  .ofCheck .requiredAttribute ⟨"htmlRequiredAttributes", "correctness", "policy"⟩
    (eachTagLine check)

end RequiredAttribute

namespace ImageDimensions

def dimensions : List Text := ["width".toList, "height".toList]

/-- The dimensions that an image tag lacks. -/
def absent (t : Tag) : List Text :=
  if t.lowerName != "img".toList || t.isClosing then []
  else dimensions.filter fun name => (t.attribute? name).isNone

/-- The line with the missing dimensions of its tags, the last tag first. -/
def complete (line : Text) (tags : List Tag) : Text :=
  tags.foldr (fun t line =>
    Text.splice line t.nameStop t.nameStop ((absent t).flatMap emptyAttribute)) line

def description : List Text → Text
  | [name] => name ++ " attribute".toList
  | _ => "width and height attributes".toList

def check (index : Nat) (line : Text) (tags : List Tag) : List Finding :=
  match tags.map absent |>.find? fun names => !names.isEmpty with
  | none => []
  | some missing =>
      [{ index, replacement := complete line tags, fields := [("missing", description missing)] }]

def rule : Rule :=
  .ofCheck .imageDimensions ⟨"htmlImageDimensions", "heuristic", "policy"⟩ (eachTagLine check)

end ImageDimensions

namespace EmptyElement

def allowed : List Text :=
  ["div", "span", "section", "article", "aside", "header", "footer", "nav", "main", "template",
   "script", "td", "th", "textarea", "iframe", "canvas", "i"].map String.toList

/-- A start tag and its end tag with only blanks between them. -/
def pattern : Pattern :=
  .char '<' ++
    .group "name" ((.one fun c => isAsciiLetter (caselessChar c)) ++
      .star (.one fun c => isWordChar c || c == '-')) ++
    .wordEdge ++ .star (.noneOf ">") ++ .char '>' ++ .blanks ++ .text "</" ++
    .again "name" (fun a b => lowerChar a == lowerChar b) ++ .blanks ++ .char '>'

def check (lines : List Text) : List Finding :=
  Rule.eachLine (fun index blanked =>
    (pattern.findAll blanked).filterMap fun m =>
      let tag := (m.text "name").lower
      if allowed.contains tag then none else some { index, fields := [("tag", tag)] })
    (MarkupComment.blank lines)

def rule : Rule := .ofCheck .emptyElement ⟨"htmlEmptyElement", "heuristic", "heuristic"⟩ check

end EmptyElement

end LineLint
