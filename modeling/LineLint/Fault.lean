import LineLint.Quoted

/-!
# Faults

The ways in which an operation of the library can fail, each with the message that reports it, and
the coarse kind that a caller can tell apart.
-/

namespace LineLint

inductive Fault where
  | unknownOptions (names : List Text)
  | unknownPreset (shown : Text)
  | optionNotBoolean (key written : Text)
  | workersNotPositive (written : Text)
  | ignoreNotCodes
  | ignoreWithoutMark (codes : List Text)
  | optionsNotTable
  | toolNotTable
  | malformedConfig
  | notAMember (value : Text) (enumeration : String)
  | ruleDomain (rule domain : String)
  | ruleConfidence (rule confidence : String)
  | ruleCode (rule code : String)
  | ruleTwice (rule : String)
  | analyzerTwice (id : String)
  | unknownAnalyzer (wanted : Text) (known : List String)
  | analyzerMismatch (id : String) (path : Text)
  | noAnalyzerForFindings
  | missingField (name : String)
  | listIndex
  | textIndex
  | planRange (line : Int) (size : Nat)
  | editRange (line : Int) (size : Nat)
  /-- An index that no text or list can have. -/
  | indexRange
  /-- A length that no text can have. -/
  | lengthRange
  /-- A width of tabs that does not fit into 32 bits. -/
  | tabRange
  | outOfMemory
  | moduloZero
  | divisionZero
  | ruleFailed
  | fileMissing
  | fileIsDirectory
  | fileBelowFile
  | nameTooLong
  /-- A null character in a path. -/
  | nullInPath
  deriving DecidableEq

inductive FaultKind where
  | value | index | key | arithmetic | overflow | memory | config | attribute | failure | noFile
  | directory | belowFile | system
  deriving DecidableEq

namespace Fault

def kind : Fault → FaultKind
  | missingField _ => .key
  | listIndex | textIndex | indexRange | planRange .. | editRange .. => .index
  | moduloZero | divisionZero => .arithmetic
  | lengthRange | tabRange => .overflow
  | outOfMemory => .memory
  | malformedConfig => .config
  | toolNotTable => .attribute
  | ruleFailed => .failure
  | fileMissing => .noFile
  | fileIsDirectory => .directory
  | fileBelowFile => .belowFile
  | nameTooLong => .system
  | _ => .value

def commaList (items : List Text) : Text := Text.joinWith [',', ' '] items

def rangeText (line : Int) (size : Nat) : Text :=
  Text.ofInt line ++ " is out of range for a ".toList ++ Text.ofInt size ++ "-line buffer".toList

def message : Fault → Text
  | unknownOptions names => "Unknown polylint option(s): ".toList ++ commaList names
  | unknownPreset shown =>
      "Invalid preset `".toList ++ shown ++ "`; expected one of default/fast".toList
  | optionNotBoolean key written =>
      ['`'] ++ key ++ "` must be a boolean, got ".toList ++ written
  | workersNotPositive written =>
      "`max-workers` must be a positive integer, got ".toList ++ written
  | ignoreNotCodes => "`ignore` must be a list of rule codes".toList
  | ignoreWithoutMark codes =>
      "`ignore` entries must be lint codes with a `LINT_` prefix: ".toList ++ commaList codes
  | optionsNotTable => "`[tool.polylint]` must be a table".toList
  | toolNotTable => "`tool` must be a table".toList
  | malformedConfig => "The configuration is not well-formed".toList
  | notAMember value enumeration =>
      value.quoted ++ " is not a valid ".toList ++ enumeration.toList
  | ruleDomain rule domain =>
      ("Lint rule `" ++ rule ++ "` has invalid domain `" ++ domain ++
        "`; expected style/correctness/heuristic.").toList
  | ruleConfidence rule confidence =>
      ("Lint rule `" ++ rule ++ "` has invalid confidence `" ++ confidence ++
        "`; expected policy/heuristic.").toList
  | ruleCode rule code =>
      ("Lint rule `" ++ rule ++ "` has invalid code `" ++ code ++
        "`; expected `LINT_` prefix.").toList
  | ruleTwice rule =>
      ("Lint rule `" ++ rule ++ "` is registered twice in the same rule set.").toList
  | analyzerTwice id => ("Duplicate analyzer id: " ++ id).toList
  | unknownAnalyzer wanted known =>
      "Unknown analyzer id: ".toList ++ wanted.quoted ++ " (known: ".toList ++
        commaList (known.map String.toList) ++ [')']
  | analyzerMismatch id path =>
      "Analyzer ".toList ++ Text.quoted id.toList ++ " does not handle ".toList ++ path.quoted ++
        "; pass either analyzer_id or file_path".toList
  | noAnalyzerForFindings =>
      "Diagnostics were passed but no analyzer matched; pass analyzer_id".toList
  | missingField name => Text.quoted name.toList
  | listIndex => "list index out of range".toList
  | textIndex => "string index out of range".toList
  | planRange line size => "line ".toList ++ rangeText line size
  | editRange line size => "Line ".toList ++ rangeText line size
  | indexRange | lengthRange => "cannot fit 'int' into an index-sized integer".toList
  | tabRange => "Python int too large to convert to C int".toList
  | outOfMemory => []
  | moduloZero => "integer modulo by zero".toList
  | divisionZero => "integer division or modulo by zero".toList
  | ruleFailed => "The rule failed".toList
  | fileMissing => "No such file".toList
  | fileIsDirectory => "A directory stands in the place of a file".toList
  | fileBelowFile => "A file stands in the place of a directory".toList
  | nameTooLong => "A name in the path is too long".toList
  | nullInPath => "embedded null byte".toList

end Fault

end LineLint
