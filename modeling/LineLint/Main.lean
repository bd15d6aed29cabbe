import LineLint.CommandLine

/-!
# The program

Loads the files that the arguments name, runs the command on them, writes back what it changed and
prints what it says.
-/

namespace LineLint

def usage : String :=
  "usage: linelint [-h] [--language LANGUAGE] [--config CONFIG] [--fix] [--no-progress] " ++
    "[--verbose] paths [paths ...]"

/-- The tree with what stands at a place. -/
def loadPlace (tree : FileTree) (place : Place) : IO FileTree := do
  let name := String.ofList (Path.ofPlace place)
  let file := System.mkFilePath [name]
  if ← file.isDir then return { tree with directories := place :: tree.directories }
  else if !(← file.pathExists) then return tree
  else
    let content ← IO.FS.readFile file
    return { tree with files := (place, content.toList) :: tree.files }

def loadTree (current : Place) (paths : List Text) : IO FileTree :=
  ((paths.flatMap (FileTree.places current)).eraseDups).foldlM loadPlace ⟨current, [], []⟩

def namedPaths : Invocation → List Text
  | .run a => a.config.toList ++ a.paths
  | _ => []

def saveChanges (before after : FileTree) : IO Unit := do
  for (place, content) in after.files do
    if before.files.lookup place != some content then
      IO.FS.writeFile (String.ofList (Path.ofPlace place)) (String.ofList content)

/-- The exit status, after an ending was reported. -/
def conclude : Command.Ending → IO UInt32
  | .help => do
      IO.println usage
      return 0
  | .refused => do
      IO.eprintln usage
      return 2
  | .done anyErrors => return if anyErrors then 1 else 0
  | .notFile path => do
      IO.eprintln (String.ofList (Command.notFileMessage path))
      return 1
  | .failed f => do
      IO.eprintln (String.ofList f.message)
      return 1

end LineLint

open LineLint in
def main (args : List String) : IO UInt32 := do
  let args := args.map String.toList
  let current := Path.components (← IO.currentDir).toString.toList
  let tree ← loadTree current (namedPaths (Invocation.ofArguments args))
  let (ending, progress) := Command.run tree args
  saveChanges tree progress.tree
  for line in progress.output do
    IO.println (String.ofList line)
  conclude ending
