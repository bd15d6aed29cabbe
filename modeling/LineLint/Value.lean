import LineLint.Binary64
import LineLint.Quoted

/-!
# Configuration values

The values that a configuration table can hold and that a message can show. `written` is the form
with quotes around text, and `shown` leaves a text on the outside as it is.
-/

namespace LineLint

inductive Value where
  | null
  | bool (b : Bool)
  | integer (n : Int)
  | real (x : Binary64)
  | text (t : Text)
  | list (items : List Value)
  | table (entries : List (Text × Value))
  deriving Inhabited

namespace Value

mutual

def written : Value → Text
  | .null => "None".toList
  | .bool b => if b then "True".toList else "False".toList
  | .integer n => Text.ofInt n
  | .real x => x.text
  | .text t => t.quoted
  | .list items => ['['] ++ writtenItems items ++ [']']
  | .table entries => ['\x7b'] ++ writtenEntries entries ++ ['\x7d']

def writtenItems : List Value → Text
  | [] => []
  | [v] => v.written
  | v :: vs => v.written ++ [',', ' '] ++ writtenItems vs

def writtenEntries : List (Text × Value) → Text
  | [] => []
  | [(k, v)] => k.quoted ++ [':', ' '] ++ v.written
  | (k, v) :: vs => k.quoted ++ [':', ' '] ++ v.written ++ [',', ' '] ++ writtenEntries vs

end

def shown : Value → Text
  | .text t => t
  | v => v.written

def lookup (entries : List (Text × Value)) (key : Text) : Option Value :=
  (entries.find? fun e => e.1 == key).map (·.2)

end Value

end LineLint
