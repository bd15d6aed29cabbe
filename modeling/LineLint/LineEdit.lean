import LineLint.Indentation

/-!
# Line edits

Edits of a list of lines by index: a line is replaced, deleted, or turned into a block of lines.
Applied from the highest index to the lowest, pending edits keep their indices.
-/

namespace LineLint

inductive EditKind where
  | replace | delete | insertBlock
  deriving DecidableEq

namespace EditKind

def name : EditKind → String
  | replace => "replace"
  | delete => "delete"
  | insertBlock => "insert_block"

def ofName? (t : Text) : Except Fault EditKind :=
  match [replace, delete, insertBlock].find? fun k => k.name.toList == t with
  | some k => .ok k
  | none => .error (.notAMember t "EditOp")

end EditKind

/-- With `ownIndent` the indentation of the new text is meant as it stands: it is rounded to the
unit for a replacement and kept for a block. -/
structure LineEdit where
  index : Int
  kind : EditKind
  text : Text := []
  ownIndent : Bool := false

namespace LineEdit

def delete (index : Int) : LineEdit := { index := index, kind := .delete }

def replace (index : Int) (text : Text) (ownIndent : Bool) : LineEdit :=
  ⟨index, .replace, text, ownIndent⟩

def insertBlock (index : Int) (text : Text) (ownIndent : Bool) : LineEdit :=
  ⟨index, .insertBlock, text, ownIndent⟩

/-- The lines of a block; carriage returns at their ends are dropped. -/
def blockLines (t : Text) : List Text :=
  (Text.splitOn '\n' t).map (Text.dropRightWhile (· == '\r'))

/-- The lines that an edit puts in the place of `line`. -/
def newLines (unit : Int) (line : Text) (e : LineEdit) : Except Fault (List Text) :=
  match e.kind with
  | .delete => .ok []
  | .replace => (Indentation.reindentLine unit line e.text e.ownIndent).map ([·])
  | .insertBlock =>
      if e.ownIndent then .ok (blockLines e.text)
      else Indentation.reindentBlock unit line (blockLines e.text)

/-- The line with an integer as its index. -/
def lineAt? (lines : List Text) (index : Int) : Option Text :=
  if index < 0 then none else lines[index.toNat]?

def apply (unit : Int) (lines : List Text) (e : LineEdit) : Except Fault (List Text) :=
  match lineAt? lines e.index with
  | none => .error (.editRange (e.index + 1) lines.length)
  | some line =>
      (e.newLines unit line).map fun new =>
        lines.take e.index.toNat ++ new ++ lines.drop (e.index.toNat + 1)

/-- Edits with the highest index first; those of one index keep their order. -/
def ordered (es : List LineEdit) : List LineEdit := es.mergeSort fun e f => f.index ≤ e.index

/-- Applies edits in the given order, with the outcome of each and the lines after it. -/
def trace (unit : Int) (lines : List Text) : List LineEdit →
    List (LineEdit × Option Fault × List Text)
  | [] => []
  | e :: es =>
      match e.apply unit lines with
      | .ok new => (e, none, new) :: trace unit new es
      | .error fault => (e, some fault, lines) :: trace unit lines es

end LineEdit

end LineLint
