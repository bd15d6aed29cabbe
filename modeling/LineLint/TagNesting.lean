import LineLint.Rule
import LineLint.Tag

/-!
# Nesting of tags

Start tags and end tags are paired over a stack of open elements, the innermost first. Void
elements and self-closing tags play no part. An end tag that closes an outer element closes all
inside it.
-/

namespace LineLint

namespace TagNesting

def voidTags : List Text :=
  ["img", "br", "hr", "meta", "link", "input", "area", "base", "col", "embed", "keygen", "param",
   "source", "track", "wbr"].map String.toList

/-- Elements whose end tag may be left out. -/
def optionalClose : List Text := ["html", "head", "body"].map String.toList

/-- A start tag or an end tag on a line. -/
structure Event where
  index : Nat
  name : Text
  isClosing : Bool

def eventOf? (index : Nat) (t : Tag) : Option Event :=
  if voidTags.contains t.lowerName || t.isSelfClosing then none
  else some ⟨index, t.lowerName, t.isClosing⟩

def events (lines : List Text) : List Event :=
  (MarkupComment.blank lines).zipIdx.flatMap fun (blanked, index) =>
    (Tag.all blanked).filterMap (eventOf? index)

/-- An open element and the line of its start tag. -/
structure Element where
  name : Text
  index : Nat

def unexpected (e : Event) : Finding where
  index := e.index
  message := "Unexpected closing tag </".toList ++ e.name ++ "> (no opening tag found)".toList
  hint := "Remove closing tag or add opening tag".toList

def mismatched (e : Event) (line : Nat) : Finding where
  index := e.index
  message :=
    "Mismatched closing tag </".toList ++ e.name ++ "> (opened at line ".toList ++
      Text.ofInt line ++ [')']
  hint := "Check tag nesting order".toList

/-- The elements left open inside `name`, and those from `name` outwards. -/
def findOpen (name : Text) (stack : List Element) : List Element :=
  stack.dropWhile fun element => element.name != name

def unclosed (stack : List Element) : List Finding :=
  (stack.reverse.filter fun element => !optionalClose.contains element.name).map fun element =>
    { index := element.index, fields := [("tag", element.name)] }

def pair (stack : List Element) : List Event → List Finding
  | [] => unclosed stack
  | e :: rest =>
      if !e.isClosing then pair (⟨e.name, e.index⟩ :: stack) rest
      else match findOpen e.name stack with
        | [] => unexpected e :: pair stack rest
        | opened :: outer =>
            if outer.length + 1 == stack.length then pair outer rest
            else mismatched e (opened.index + 1) :: pair outer rest

def check (lines : List Text) : List Finding := pair [] (events lines)

def rule : Rule := .ofCheck .tagClosing ⟨"htmlTagClosing", "correctness", "heuristic"⟩ check

end TagNesting

namespace TableStructure

/-- An open table: the line of its start tag and the number of its rows. -/
structure Table where
  index : Nat
  rows : Nat

/-- The open tables, the innermost first, the line of the open row, and the cells counted in it. -/
structure State where
  tables : List Table := []
  row : Option Nat := none
  cells : Nat := 0

def emptyTable (index : Nat) : Finding where
  index := index
  fields := [("problem", "Empty table (no rows)".toList)]
  hint := "Add table rows with <tr>".toList

def emptyRow (index : Nat) : Finding where
  index := index
  fields := [("problem", "Table row without cells".toList)]
  hint := "Add <td> or <th> cells inside <tr>".toList

/-- The state after one tag, and what it shows. -/
def step (index : Nat) (t : Tag) (s : State) : State × List Finding :=
  let name := t.lowerName
  if name == "table".toList then
    if !t.isClosing then ({ s with tables := ⟨index, 0⟩ :: s.tables }, [])
    else match s.tables with
      | [] => (s, [])
      | table :: outer =>
          ({ s with tables := outer }, if table.rows == 0 then [emptyTable table.index] else [])
  else if name == "tr".toList then
    match s.tables, s.row with
    | [], _ => (s, [])
    | table :: outer, row =>
        if !t.isClosing then
          (⟨{ table with rows := table.rows + 1 } :: outer, some index, 0⟩, [])
        else match row with
          | none => (s, [])
          | some start => ({ s with row := none }, if s.cells == 0 then [emptyRow start] else [])
  else if (name == "td".toList || name == "th".toList) && !t.isClosing then
    ({ s with cells := s.cells + 1 }, [])
  else (s, [])

def walk (s : State) : List (Nat × Tag) → List Finding
  | [] => []
  | (index, t) :: rest =>
      let (s, found) := step index t s
      found ++ walk s rest

def check (lines : List Text) : List Finding :=
  walk {} ((MarkupComment.blank lines).zipIdx.flatMap fun (blanked, index) =>
    (Tag.all blanked).map fun t => (index, t))

def rule : Rule :=
  .ofCheck .tableStructure ⟨"htmlTableStructure", "heuristic", "heuristic"⟩ check

end TableStructure

end LineLint
