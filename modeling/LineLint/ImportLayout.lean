import LineLint.LineScan
import LineLint.Preamble
import LineLint.Rule

/-!
# Layout of imports

Module-level imports stand below the preamble, before other code, and each on a line of its own.
The fix of a misplaced import is its own line: the fixer moves it.
-/

namespace LineLint

namespace ImportLayout

/-- A line that starts an import statement at module level. -/
def importLine : Pattern := .start ++ .words ["import", "from"] ++ .blanks1 ++ .nonBlank

/-- Checks the lines from `index` on; `codeSeen` tells whether other code stands above them. -/
def placementFrom (index : Nat) (codeSeen : Bool) : List (Text × Bool) → List Finding
  | [] => []
  | (line, continued) :: rest =>
      let stripped := line.trim
      if stripped.isEmpty || stripped.head? == some '#' || continued then
        placementFrom (index + 1) codeSeen rest
      else if !importLine.matchesStart line then placementFrom (index + 1) true rest
      else if codeSeen then
        { index, replacement := line } :: placementFrom (index + 1) codeSeen rest
      else placementFrom (index + 1) codeSeen rest

def checkPlacement (style : LiteralStyle) (lines : List Text) : List Finding :=
  let top := leadingPreamble ['#'] lines
  placementFrom top false ((lines.zip (LineScan.continued style lines)).drop top)

def placementRule (style : LiteralStyle) : Rule :=
  .ofCheck .importPlacement ⟨"pythonImportPlacement", "style", "policy"⟩ (checkPlacement style)

def importList : Pattern :=
  .start ++ .text "import" ++ .blanks1 ++ .group "modules" (.plus (.noneOf "\n")) ++ .stop

def checkSingle (style : LiteralStyle) (index : Nat) (line : Text) : List Finding :=
  let (code, comment) := style.splitComment line
  match importList.matchStart? code.trim with
  | none => []
  | some m =>
      let names := m.text "modules"
      let modules := ((Text.splitOn ',' names).map Text.trim).filter fun name => !name.isEmpty
      if !names.contains ',' || names.contains '(' then []
      else match modules with
        | first :: second :: others =>
            let trailer := if comment.isEmpty then [] else [' ', ' '] ++ comment.trim
            let statement (name : Text) : Text := "import ".toList ++ name
            [{ index
               replacement := Text.joinWith ['\n']
                 ((statement first ++ trailer) :: (second :: others).map statement) }]
        | _ => []

def singleRule (style : LiteralStyle) : Rule :=
  .ofCheck .multipleImports ⟨"pythonMultipleImports", "style", "policy"⟩
    (Rule.eachLine (checkSingle style))

end ImportLayout

end LineLint
