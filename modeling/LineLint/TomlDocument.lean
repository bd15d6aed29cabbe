import LineLint.TomlTable
import LineLint.TomlText

/-!
# TOML documents

A document is a sequence of lines that hold a key with its value, a header or nothing, with a
comment at the end if need be. Values that hold others are read with a bound on the number of
steps, which the length of the text gives.
-/

namespace LineLint

namespace Toml

/-- An inline table under construction, with the paths of the values that no key may reach into. -/
structure InlineTable where
  entries : Entries := []
  frozen : List Path := []

namespace InlineTable

def insert (table : InlineTable) (path : Path) (value : Value) : Option InlineTable := do
  let key ← path.getLast?
  if table.frozen.any fun p => p.isPrefixOf path then none
  else
    return {
      entries := ← modifyAt false (insertNew key value) path.dropLast table.entries
      frozen := if isNested value then path :: table.frozen else table.frozen }

end InlineTable

mutual

def value (fuel : Nat) (t : Text) : Option (Value × Text) :=
  match fuel with
  | 0 => none
  | fuel + 1 =>
      match t with
      | '[' :: rest => do
          let (items, rest) ← arrayItems fuel (← skipGap false rest)
          return (.list items, rest)
      | '{' :: rest =>
          match skipSpaces rest with
          | '}' :: rest => some (.table [], rest)
          | rest => inlineEntries fuel {} rest
      | t => scalar t

/-- The items of an array up to its closing bracket. -/
def arrayItems (fuel : Nat) (t : Text) : Option (List Value × Text) :=
  match fuel with
  | 0 => none
  | fuel + 1 =>
      match t with
      | ']' :: rest => some ([], rest)
      | t => do
          let (item, rest) ← value fuel t
          match ← skipGap false rest with
          | ']' :: rest => return ([item], rest)
          | ',' :: rest => do
              let (items, rest) ← arrayItems fuel (← skipGap false rest)
              return (item :: items, rest)
          | _ => none

/-- A key, the equals sign and a value. -/
def keyValue (fuel : Nat) (t : Text) : Option ((Path × Value) × Text) :=
  match fuel with
  | 0 => none
  | fuel + 1 => do
      match ← keyPath t.length t with
      | (path, '=' :: rest) => do
          let (v, rest) ← value fuel (skipSpaces rest)
          return ((path, v), rest)
      | _ => none

/-- The entries of an inline table up to its closing brace. -/
def inlineEntries (fuel : Nat) (table : InlineTable) (t : Text) : Option (Value × Text) :=
  match fuel with
  | 0 => none
  | fuel + 1 => do
      let ((path, v), rest) ← keyValue fuel t
      let table ← table.insert path v
      match skipSpaces rest with
      | '}' :: rest => return (.table table.entries, rest)
      | ',' :: rest => inlineEntries fuel table (skipSpaces rest)
      | _ => none

end

/-- The steps that reading a value of a text can take. -/
def stepBound (t : Text) : Nat := 3 * t.length + 3

/-- A header or a key with its value. -/
def statement (d : Document) (t : Text) : Option (Document × Text) :=
  match t with
  | '[' :: '[' :: rest => do
      match ← keyPath rest.length (skipSpaces rest) with
      | (path, ']' :: ']' :: rest) => return (← d.endSection.declareArray path, rest)
      | _ => none
  | '[' :: rest => do
      match ← keyPath rest.length (skipSpaces rest) with
      | (path, ']' :: rest) => return (← d.endSection.declareTable path, rest)
      | _ => none
  | t => do
      let ((path, v), rest) ← keyValue (stepBound t) t
      return (← d.insert path v, rest)

/-- The statement of a line that starts with its first character that is not blank. -/
def line (d : Document) (t : Text) : Option (Document × Text) :=
  match t with
  | [] => some (d, [])
  | c :: _ => if c == '\n' || c == '#' then some (d, t) else statement d t

/-- Reads lines, at most so many. -/
def lines : Nat → Document → Text → Option Document
  | 0, _, _ => none
  | count + 1, d, t => do
      let (d, rest) ← line d (skipSpaces t)
      match ← skipComment (skipSpaces rest) with
      | [] => return d
      | '\n' :: rest => lines count d rest
      | _ => none

/-- A carriage return before a newline is part of it. -/
def joinReturns : Text → Text
  | '\r' :: '\n' :: rest => '\n' :: joinReturns rest
  | c :: rest => c :: joinReturns rest
  | [] => []

/-- The entries of a document, unless it is malformed. -/
def read (t : Text) : Option Entries :=
  let t := joinReturns t
  (lines (t.length + 1) {} t).map (·.entries)

end Toml

end LineLint
