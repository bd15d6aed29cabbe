import LineLint.Analyzer
import LineLint.CSharpLanguage
import LineLint.CppLanguage
import LineLint.HtmlLanguage
import LineLint.JavaLanguage
import LineLint.JavaScriptLanguage
import LineLint.PythonLanguage

/-!
# The registry of analyzers

Analyzers in order of priority: where several could take a text, the first one does. Identifiers
are distinct and every rule set is sound. An analyzer is found by its identifier or its display
name, whatever the letter case.
-/

namespace LineLint

/-- The extension of a file name, with its dot. Dots at the start of the name start no extension.
-/
def fileExtension (path : Text) : Text :=
  let name := (path.reverse.takeWhile (· != '/')).reverse
  let extension := (name.reverse.takeWhile (· != '.')).reverse
  let stem := name.take (name.length - extension.length - 1)
  if extension.length < name.length && stem.any (· != '.') then '.' :: extension else []

structure Registry where
  analyzers : List Analyzer

namespace Registry

def validateFrom (seen : List String) : List Analyzer → Except Fault Unit
  | [] => .ok ()
  | a :: rest =>
      if seen.contains a.id then .error (.analyzerTwice a.id)
      else do
        Rule.validateAll a.rules
        validateFrom (a.id :: seen) rest

def ofAnalyzers (analyzers : List Analyzer) : Except Fault Registry := do
  validateFrom [] analyzers
  return ⟨analyzers⟩

def builtin : Registry where
  analyzers :=
    [⟨CSharp.profile, CSharp.rules⟩, ⟨Html.profile, Html.rules⟩, ⟨Python.profile, Python.rules⟩,
     ⟨Java.profile, Java.rules⟩, ⟨Cpp.profile, Cpp.rules⟩,
     ⟨JavaScript.profile, JavaScript.rules⟩]

/-- The analyzer for a text, by the extension of its path first and then by its content. -/
def select? (r : Registry) (text : Text) (path : Option Text) : Option Analyzer :=
  let extension := fileExtension (path.getD [])
  let byExtension :=
    if extension.isEmpty then none
    else r.analyzers.find? fun a => a.canHandle text extension
  byExtension.or (r.analyzers.find? fun a => a.canHandle text [])

def answersTo (a : Analyzer) (wanted : Text) : Bool :=
  Text.fold a.id.toList == wanted || Text.fold a.displayName.toList == wanted

def get (r : Registry) (wanted : Text) : Except Fault Analyzer :=
  match r.analyzers.find? fun a => answersTo a (Text.fold wanted) with
  | some a => .ok a
  | none => .error (.unknownAnalyzer wanted (r.analyzers.map (·.id)))

/-- Languages that are listed before all others, in this order. -/
def listedFirst : List String := ["C#", "C++", "Java", "Python", "JavaScript", "HTML"]

def supportedLanguages (r : Registry) : List String :=
  let names := (r.analyzers.map (·.displayName)).eraseDups
  listedFirst.filter names.contains ++
    (names.filter fun name => !listedFirst.contains name).mergeSort fun a b => a ≤ b

/-- The analyzer that is asked for by name or else chosen for the text. One asked for by name has
to handle the extension of the path. -/
def resolve (r : Registry) (text : Text) (wanted path : Option Text) :
    Except Fault (Option Analyzer) :=
  match wanted with
  | none => .ok (r.select? text path)
  | some wanted => do
      let a ← r.get wanted
      let path := path.getD []
      let extension := fileExtension path
      if !extension.isEmpty && !a.canHandle text extension then
        .error (.analyzerMismatch a.id path)
      else .ok (some a)

end Registry

end LineLint
