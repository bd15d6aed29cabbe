import LineLint.Run

/-!
# Sessions

A session works on one text in steps under one analyzer. Each step leaves a text and a report; a
step that fails leaves the text as it was.
-/

namespace LineLint

namespace Session

inductive Step where
  | format (options : LintOptions.Table)
  | check (options : LintOptions.Table)
  | fixCodes (codes : List String)
  | fixSome (indices : List Nat)
  | detect (path : Option Text)
  | append (t : Text)
  | prepend (t : Text)

inductive Report where
  | formatted (r : FormatResult)
  | checked (r : CheckResult)
  | count (n : Nat)
  | taken (ds : List Diagnostic)
  | language (id : Option String)
  | nothing
  | failed (f : Fault)

def run (analyzer text : Text) : Step → Except Fault (Text × Report)
  | .format table => do
      let options ← LintOptions.ofTable table
      let result ← Run.format text none { analyzer := some analyzer, options }
      return (result.text, .formatted result)
  | .check table => do
      let options ← LintOptions.ofTable table
      return (text, .checked (← Run.check text { analyzer := some analyzer, options }))
  | .fixCodes codes => do
      let kept := (← Run.analyze analyzer text).filter fun d => codes.contains d.code
      return (← Run.fix analyzer text kept, .count kept.length)
  | .fixSome indices => do
      let found := fixable (← Run.analyze analyzer text)
      let taken := indices.filterMap fun i => found[i]?
      return (← Run.fix analyzer text taken, .taken taken)
  | .detect path => return (text, .language (Run.detect text path))
  | .append t => return (text ++ t, .nothing)
  | .prepend t => return (t ++ text, .nothing)

/-- The text and the report after each step. -/
def runAll (analyzer text : Text) : List Step → List (Text × Report)
  | [] => []
  | step :: rest =>
      match run analyzer text step with
      | .ok (next, report) => (next, report) :: runAll analyzer next rest
      | .error f => (text, .failed f) :: runAll analyzer text rest

end Session

end LineLint
