import LineLint.Catalog

/-!
# Rules

A rule inspects the lines of a text and reports diagnostics; it keeps no state and knows of no
other rule. A rule set is sound if its domains, confidences and codes are allowed ones and no name
occurs twice. A rule that fails while it is run in a set is left out of the result.
-/

namespace LineLint

structure Rule where
  code : String
  name : String
  category : String
  domain : String
  confidence : String
  run : List Text → Except Fault (List Diagnostic)

/-- How a check is registered. -/
structure RuleInfo where
  name : String
  domain : String
  confidence : String

namespace Rule

/-- The rule that reports the findings of a check under one specification. -/
def ofFindings (spec : Spec) (info : RuleInfo) (find : List Text → Except Fault (List Finding)) :
    Rule where
  code := spec.code
  name := info.name
  category := spec.category
  domain := info.domain
  confidence := info.confidence
  run lines := do (← find lines).mapM (spec.report lines)

/-- The rule of a check that cannot fail. -/
def ofCheck (spec : Spec) (info : RuleInfo) (check : List Text → List Finding) : Rule :=
  ofFindings spec info fun lines => .ok (check lines)

/-- The findings of a check that looks at one line at a time. -/
def eachLine (check : Nat → Text → List Finding) (lines : List Text) : List Finding :=
  lines.zipIdx.flatMap fun (line, index) => check index line

/-- The findings of a check that looks at one line at a time and can fail. -/
def eachLineOrFail (check : Nat → Text → Except Fault (List Finding)) (lines : List Text) :
    Except Fault (List Finding) := do
  return (← lines.zipIdx.mapM fun (line, index) => check index line).flatten

/-- The findings of a rule in a set; those of a failing rule are dropped. -/
def runGuarded (lines : List Text) (r : Rule) : List Diagnostic :=
  match r.run lines with
  | .ok ds => ds
  | .error _ => []

def runAll (rules : List Rule) (lines : List Text) : List Diagnostic :=
  rules.flatMap (runGuarded lines)

def domains : List String := ["style", "correctness", "heuristic"]

def confidences : List String := ["policy", "heuristic"]

def validate (r : Rule) : Except Fault Unit :=
  if !domains.contains r.domain then .error (.ruleDomain r.name r.domain)
  else if !confidences.contains r.confidence then .error (.ruleConfidence r.name r.confidence)
  else if !"LINT_".toList.isPrefixOf r.code.toList then .error (.ruleCode r.name r.code)
  else .ok ()

def validateFrom (seen : List String) : List Rule → Except Fault Unit
  | [] => .ok ()
  | r :: rest => do
      r.validate
      if seen.contains r.name then .error (.ruleTwice r.name)
      else validateFrom (r.name :: seen) rest

def validateAll (rules : List Rule) : Except Fault Unit := validateFrom [] rules

end Rule

end LineLint
