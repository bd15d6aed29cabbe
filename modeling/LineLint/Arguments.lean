import LineLint.Character
import LineLint.Text

/-!
# Command-line arguments

Arguments are words: switches, values of switches, and paths. A long switch may be shortened as
long as it stays unique, its value is the next word or follows an equals sign, and two dashes make
all words after them paths. The paths stand together in one run of words; more of them elsewhere, a
word that names no switch, or no path at all are refused. Words take effect from left to right, so
that help asked for before an error is given.
-/

namespace LineLint

inductive Switch where
  | help | language | config | fix | noProgress | verbose
  deriving DecidableEq

namespace Switch

def all : List Switch := [help, language, config, fix, noProgress, verbose]

/-- The long name, behind two dashes. -/
def name : Switch → String
  | help => "--help"
  | language => "--language"
  | config => "--config"
  | fix => "--fix"
  | noProgress => "--no-progress"
  | verbose => "--verbose"

def takesValue : Switch → Bool
  | language | config => true
  | _ => false

/-- The switches whose long name starts with a text. -/
def startingWith (start : Text) : List Switch :=
  all.filter fun s => start.isPrefixOf s.name.toList

end Switch

inductive Word where
  | plain (t : Text)
  /-- Two dashes: what follows is plain. -/
  | separator
  | long (s : Switch) (attached : Option Text)
  /-- The short switch for help, with the letters attached to it. -/
  | shortHelp (letters : Text)
  | unknown

namespace Word

/-- Whether a word with a dash is a negative number. -/
def isNegativeNumber (t : Text) : Bool :=
  match (if t.getLast? == some '\n' then t.dropLast else t) with
  | '-' :: digits =>
      let fraction := (digits.dropWhile isDecimal).drop 1
      (!digits.isEmpty && digits.all isDecimal) ||
        ((digits.dropWhile isDecimal).head? == some '.' && !fraction.isEmpty &&
          fraction.all isDecimal)
  | _ => false

/-- The part before the first equals sign, and the part after it if there is one. -/
def splitValue (t : Text) : Text × Option Text :=
  match t.dropWhile (· != '=') with
  | [] => (t, none)
  | _ :: value => (t.takeWhile (· != '='), some value)

/-- A word that is no switch: a negative number or a word with a space is plain. -/
def other (t : Text) : Word := if isNegativeNumber t || t.contains ' ' then plain t else unknown

/-- The meaning of a word; none if it shortens several switches. -/
def ofText? (t : Text) : Option Word :=
  let (name, value) := splitValue t
  match t with
  | '-' :: '-' :: _ =>
      match Switch.all.find? fun s => s.name.toList == name, Switch.startingWith name with
      | some s, _ => some (long s value)
      | none, [] => some (other t)
      | none, [s] => some (long s value)
      | none, _ => none
  | '-' :: 'h' :: letters => some (shortHelp letters)
  | '-' :: _ :: _ => some (other t)
  | _ => some (plain t)

/-- Whether the letters attached to the short switch for help leave it valid. They are short
switches of their own, of which only help is known; the first unknown one ends the word. -/
def givesHelp : Text → Bool
  | [] => true
  | '=' :: _ => false
  | '-' :: _ => false
  | 'h' :: letters => givesHelp letters
  | _ => true

def ofTexts? : List Text → Option (List Word)
  | [] => some []
  | t :: rest =>
      if t == ['-', '-'] then some (separator :: rest.map plain)
      else do return (← ofText? t) :: (← ofTexts? rest)

end Word

structure Arguments where
  paths : List Text := []
  language : Option Text := none
  config : Option Text := none
  fix : Bool := false
  verbose : Bool := false

/-- What a command line asks for. -/
inductive Invocation where
  | run (a : Arguments)
  | help
  | refused

namespace Arguments

def setFlag (a : Arguments) : Switch → Arguments
  | .fix => { a with fix := true }
  | .verbose => { a with verbose := true }
  | _ => a

def setValue (a : Arguments) (value : Text) : Switch → Arguments
  | .language => { a with language := some value }
  | .config => { a with config := some value }
  | _ => a

/-- Reads words. The run of paths is over once a switch follows a path, and `extra` tells whether a
word without a place was met. -/
def read (a : Arguments) (pathsOver extra : Bool) : List Word → Invocation
  | [] => if a.paths.isEmpty || extra then .refused else .run a
  | .plain t :: rest =>
      if pathsOver then read a pathsOver true rest
      else read { a with paths := a.paths ++ [t] } pathsOver extra rest
  | .separator :: rest => read a pathsOver (extra || pathsOver) rest
  | .unknown :: rest => read a (!a.paths.isEmpty) true rest
  | .shortHelp letters :: _ => if Word.givesHelp letters then .help else .refused
  | .long s (some value) :: rest =>
      if s.takesValue then read (a.setValue value s) (!a.paths.isEmpty) extra rest else .refused
  | .long s none :: .plain value :: rest =>
      if s.takesValue then read (a.setValue value s) (!a.paths.isEmpty) extra rest
      else if s == .help then .help
      else read (a.setFlag s) (!a.paths.isEmpty) extra (.plain value :: rest)
  | .long s none :: rest =>
      if s.takesValue then .refused
      else if s == .help then .help
      else read (a.setFlag s) (!a.paths.isEmpty) extra rest

end Arguments

namespace Invocation

def ofArguments (args : List Text) : Invocation :=
  match Word.ofTexts? args with
  | some words => Arguments.read {} false false words
  | none => .refused

end Invocation

end LineLint
