import LineLint.Fault

/-!
# Files and paths

The files that a command works on, each with its content at its place below the root, and the
directory that relative paths start from. A directory exists where it is listed or where the tree
has a file below it. A path is written without empty components and without single dots; going up
is left as it is.
-/

namespace LineLint

/-- The names from the root down to a file or directory. -/
abbrev Place := List Text

structure FileTree where
  current : Place
  files : List (Place × Text)
  directories : List Place := []

/-- What stands at the end of a path. -/
inductive PathTarget where
  | file (place : Place) (content : Text)
  | directory
  | missing
  /-- The path goes on below a file. -/
  | belowFile
  | nameTooLong
  /-- The path holds a null character, and no name does. -/
  | unnamed

namespace Path

def isAbsolute (path : Text) : Bool := path.head? == some '/'

def components (path : Text) : List Text :=
  (Text.splitOn '/' path).filter fun part => !part.isEmpty && part != ['.']

/-- Two slashes at the start, and not more, are kept. -/
def root (path : Text) : Text :=
  let slashes := (path.takeWhile (· == '/')).length
  if slashes == 0 then [] else if slashes == 2 then ['/', '/'] else ['/']

def normalize (path : Text) : Text :=
  let t := root path ++ Text.joinWith ['/'] (components path)
  if t.isEmpty then ['.'] else t

/-- The absolute path of a place. -/
def ofPlace (place : Place) : Text := '/' :: Text.joinWith ['/'] place

end Path

namespace FileTree

def isDirectory (t : FileTree) (place : Place) : Bool :=
  place.isPrefixOf t.current || t.directories.contains place ||
    t.files.any fun f => place.isPrefixOf f.1 && f.1 != place

def targetAt (t : FileTree) (place : Place) : PathTarget :=
  match t.files.lookup place with
  | some content => .file place content
  | none => if t.isDirectory place then .directory else .missing

/-- The number of bytes that a text takes up in UTF-8. -/
def byteLength (t : Text) : Nat := (t.map Char.utf8Size).foldr (· + ·) 0

/-- Walks down from a directory. A name takes up at most 255 bytes. -/
def walk (t : FileTree) (place : Place) : List Text → PathTarget
  | [] => t.targetAt place
  | ['.', '.'] :: rest => walk t place.dropLast rest
  | name :: rest =>
      let next := place ++ [name]
      if 255 < byteLength name then .nameTooLong
      else if rest.isEmpty then t.targetAt next
      else if t.isDirectory next then walk t next rest
      else match t.targetAt next with
        | .file .. => .belowFile
        | _ => .missing

/-- Where the walk along a path starts. -/
def origin (current : Place) (path : Text) : Place := if Path.isAbsolute path then [] else current

/-- What a path of less than 4096 bytes leads to. -/
def find (t : FileTree) (path : Text) : PathTarget :=
  if path.contains '\x00' then .unnamed
  else if 4095 < byteLength path then .nameTooLong
  else walk t (origin t.current path) (Path.components path)

/-- The places that a walk passes, its end included. -/
def placesFrom (place : Place) : List Text → List Place
  | [] => [place]
  | ['.', '.'] :: rest => place :: placesFrom place.dropLast rest
  | name :: rest => place :: placesFrom (place ++ [name]) rest

def places (current : Place) (path : Text) : List Place :=
  placesFrom (origin current path) (Path.components path)

def isFile (t : FileTree) (path : Text) : Except Fault Bool :=
  match t.find path with
  | .file .. => .ok true
  | .nameTooLong => .error .nameTooLong
  | _ => .ok false

/-- The tree with a new content for a file that it has. -/
def write (t : FileTree) (path content : Text) : FileTree :=
  match t.find path with
  | .file place _ =>
      { t with files := t.files.map fun f => if f.1 == place then (place, content) else f }
  | _ => t

/-- The text of a file's content: every kind of line end is a newline. -/
def unifyLineEnds : Text → Text
  | '\r' :: '\n' :: rest => '\n' :: unifyLineEnds rest
  | '\r' :: rest => '\n' :: unifyLineEnds rest
  | c :: rest => c :: unifyLineEnds rest
  | [] => []

end FileTree

end LineLint
