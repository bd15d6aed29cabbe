import LineLint.Arguments
import LineLint.FileTree
import LineLint.OptionsFile
import LineLint.Run

/-!
# The command

The command lints files and prints what it finds, one diagnostic a line, with a count at the end.
Asked to fix, it first writes the formatted text back. Nothing is linted unless all paths lead to
files. A fault ends the command where it arises and keeps what was printed and written before it.
-/

namespace LineLint

namespace Command

/-- How a command ends. -/
inductive Ending where
  | help
  | refused
  | done (anyErrors : Bool)
  | notFile (path : Text)
  | failed (f : Fault)

def notFileMessage (path : Text) : Text := "Not a file: ".toList ++ path

structure Progress where
  tree : FileTree
  /-- The printed lines. -/
  output : List Text := []
  found : List Diagnostic := []

abbrev Step := ExceptT Fault (StateM Progress)

def print (line : Text) : Step Unit := modify fun p => { p with output := p.output ++ [line] }

def diagnosticLine (path : Text) (d : Diagnostic) : Text :=
  let hint := if d.suggestion.isEmpty then [] else " (".toList ++ d.suggestion ++ [')']
  path ++ [':'] ++ Text.ofInt d.line ++ [':', ' '] ++ d.severity.toList ++ [' '] ++
    d.code.toList ++ [' '] ++ d.message ++ hint

def content (path : Text) : Step Text := do
  match (← get).tree.find path with
  | .file _ content => return content
  | .directory => throw .fileIsDirectory
  | .missing => throw .fileMissing
  | .belowFile => throw .fileBelowFile
  | .nameTooLong => throw .nameTooLong
  | .unnamed => throw .nullInPath

/-- The text of a file after its fixes were written back. -/
def fixFile (path text : Text) (request : Request) : Step Text := do
  let result ← Run.format text none request
  if result.changed then
    modify fun p => { p with tree := p.tree.write path result.text }
    print (path ++ ": applied ".toList ++ Text.ofInt result.applied.length ++
      " fix(es), skipped ".toList ++ Text.ofInt result.skipped.length)
  return result.text

def lintFile (a : Arguments) (options : LintOptions) (path : Text) : Step Unit := do
  let request : Request := ⟨a.language, some path, options⟩
  let text := FileTree.unifyLineEnds (← content path)
  let text ← if a.fix then fixFile path text request else pure text
  let result ← Run.check text request
  if result.language.isNone then print (path ++ ": language not detected, skipped".toList)
  else
    result.diagnostics.forM fun d => print (diagnosticLine path d)
    modify fun p => { p with found := p.found ++ result.diagnostics }

def summary (diagnostics files : Nat) : Text :=
  Text.ofInt diagnostics ++ " diagnostic(s) in ".toList ++ Text.ofInt files ++ " file(s)".toList

def categoryLine (entry : String × Nat) : Text :=
  [' ', ' '] ++ entry.1.toList ++ [':', ' '] ++ Text.ofInt entry.2

def lintAll (a : Arguments) (options : LintOptions) (paths : List Text) : Step Unit := do
  paths.forM (lintFile a options)
  let found := (← get).found
  print (summary found.length paths.length)
  if a.verbose then
    let counts := (countByCategory found).mergeSort fun c d => c.1 ≤ d.1
    counts.forM fun entry => print (categoryLine entry)

def options : Option Text → Step LintOptions
  | none => return {}
  | some path => do LintOptions.ofFile (← content path)

/-- Executes the command; a path that is no file ends it before anything is linted. -/
def execute (a : Arguments) : Step (Option Text) := do
  let options ← options (a.config.map Path.normalize)
  let paths := a.paths.map Path.normalize
  let tree := (← get).tree
  let areFiles ← paths.mapM fun path => tree.isFile path
  match ((paths.zip areFiles).find? fun entry => !entry.2).map (·.1) with
  | some path => return some path
  | none =>
      lintAll a options paths
      return none

def run (tree : FileTree) (args : List Text) : Ending × Progress :=
  match Invocation.ofArguments args with
  | .help => (.help, { tree })
  | .refused => (.refused, { tree })
  | .run a =>
      match (execute a).run.run { tree } with
      | (.ok none, p) => (.done (hasErrors p.found), p)
      | (.ok (some path), p) => (.notFile path, p)
      | (.error f, p) => (.failed f, p)

end Command

end LineLint
