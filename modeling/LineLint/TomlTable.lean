import LineLint.Value

/-!
# Tables of a TOML document

A document fills nested tables, each at its path of keys. A table is declared at most once by a
header, a table that dotted keys have opened cannot be declared after the section that opened it,
and an inline value cannot be reached into at all. An array of tables is entered through its last
element.
-/

namespace LineLint

namespace Toml

abbrev Entries := List (Text × Value)

/-- A place in nested tables. -/
abbrev Path := List Text

/-- The entries with a new value for a key, which keeps its place if it was there. -/
def put (key : Text) (value : Value) : Entries → Entries
  | [] => [(key, value)]
  | (k, v) :: rest => if k == key then (key, value) :: rest else (k, v) :: put key value rest

/-- Adds an entry unless its key is taken. -/
def insertNew (key : Text) (value : Value) (entries : Entries) : Option Entries :=
  if (Value.lookup entries key).isSome then none else some (entries ++ [(key, value)])

/-- Adds an empty table to the array at a key, which is made if it is missing. -/
def appendTable (key : Text) (entries : Entries) : Option Entries :=
  match Value.lookup entries key with
  | none => some (entries ++ [(key, .list [.table []])])
  | some (.list items) => some (put key (.list (items ++ [.table []])) entries)
  | some _ => none

/-- Changes the table at a path; missing tables on the way are made. Arrays of tables are entered
only if asked for. -/
def modifyAt (enterArrays : Bool) (change : Entries → Option Entries) :
    Path → Entries → Option Entries
  | [], entries => change entries
  | key :: path, entries =>
      match Value.lookup entries key with
      | none => do return put key (.table (← modifyAt enterArrays change path [])) entries
      | some (.table inner) => do
          return put key (.table (← modifyAt enterArrays change path inner)) entries
      | some (.list items) =>
          match enterArrays, items.getLast? with
          | true, some (.table inner) => do
              let last := .table (← modifyAt enterArrays change path inner)
              return put key (.list (items.dropLast ++ [last])) entries
          | _, _ => none
      | some _ => none

def isNested : Value → Bool
  | .table _ | .list _ => true
  | _ => false

/-- What has been read of a document. -/
structure Document where
  entries : Entries := []
  /-- The table that keys are relative to. -/
  header : Path := []
  /-- Tables that no further header may declare. -/
  declared : List Path := []
  /-- Tables that dotted keys of the section opened. -/
  opened : List Path := []
  /-- Inline values. -/
  frozen : List Path := []

namespace Document

def isFrozen (d : Document) (path : Path) : Bool := d.frozen.any fun p => p.isPrefixOf path

/-- The document at the start of a further section. -/
def endSection (d : Document) : Document :=
  { d with declared := d.opened ++ d.declared, opened := [] }

def declareTable (d : Document) (path : Path) : Option Document := do
  if d.declared.contains path || d.isFrozen path then none
  else
    return { d with
      entries := ← modifyAt true some path d.entries
      header := path
      declared := path :: d.declared }

/-- Opens one more table of an array. What was declared below the array concerned the table before
it. -/
def declareArray (d : Document) (path : Path) : Option Document := do
  let key ← path.getLast?
  if d.isFrozen path then none
  else
    return { d with
      entries := ← modifyAt true (appendTable key) path.dropLast d.entries
      header := path
      declared := path :: d.declared.filter fun p => !path.isPrefixOf p
      frozen := d.frozen.filter fun p => !path.isPrefixOf p }

/-- The tables between the header and the last of some dotted keys. -/
def between (d : Document) (path : Path) : List Path :=
  ((List.range path.length).drop 1).map fun n => d.header ++ path.take n

def insert (d : Document) (path : Path) (value : Value) : Option Document := do
  let key ← path.getLast?
  let containers := d.between path
  let parent := d.header ++ path.dropLast
  if containers.any d.declared.contains || d.isFrozen parent then none
  else
    return { d with
      entries := ← modifyAt true (insertNew key value) parent d.entries
      opened := containers ++ d.opened
      frozen := if isNested value then (d.header ++ path) :: d.frozen else d.frozen }

end Document

end Toml

end LineLint
