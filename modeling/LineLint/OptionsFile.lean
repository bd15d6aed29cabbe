import LineLint.Options
import LineLint.TomlDocument

/-!
# Options in a configuration file

A project's configuration document may hold a table of options. Without one the defaults hold.
-/

namespace LineLint

namespace LintOptions

/-- The table of options in the tool section of a document, empty if there is none. -/
def tableOf (document : Table) : Except Fault Table :=
  match Value.lookup document "tool".toList with
  | none => .ok []
  | some (.table tools) =>
      match Value.lookup tools "polylint".toList with
      | none => .ok []
      | some (.table options) => .ok options
      | some _ => .error .optionsNotTable
  | some _ => .error .toolNotTable

def ofFile (text : Text) : Except Fault LintOptions :=
  match Toml.read text with
  | none => .error .malformedConfig
  | some document => tableOf document >>= ofTable

end LintOptions

end LineLint
