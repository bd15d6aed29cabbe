import LineLint.ProtectedSpan
import LineLint.Rule

/-!
# Operator spacing

A binary operator has one space on each side. The line is rebuilt cell by cell: blanks before an
operator are taken back, blanks after it are passed over. An operator is kept as it stands where it
cannot be binary: at the start, after other punctuation or a word such as `return`, and in the
exponent of a number. A control keyword is set off from the parenthesis behind it.
-/

namespace LineLint

structure OperatorTable where
  binary : List Text
  /-- Operators that may also be unary; they are spaced only when tight on both sides. -/
  unaryCapable : List Text := [['+'], ['-'], ['*'], ['&'], ['*', '*']]
  /-- Tokens that are never spaced. -/
  verbatim : List Text := [['+', '+'], ['-', '-']]
  controlKeywords : List Text := ["if", "for", "while", "switch", "catch"].map String.toList

namespace OperatorTable

/-- All tokens, the longer ones first. -/
def byLength (t : OperatorTable) : List Text :=
  (t.binary ++ t.verbatim).mergeSort fun a b => b.length ≤ a.length

end OperatorTable

structure OperatorSpacing where
  table : OperatorTable
  style : LiteralStyle := {}
  generics : Bool := true
  /-- Whether `=` inside brackets belongs to an argument and is left alone. -/
  keywordArguments : Bool := false
  skipped : List Text := []

namespace OperatorSpacing

/-- A line being rebuilt: the chunks of the result, the last one first, and what was too tight. -/
structure Rebuilt where
  chunks : List Text := []
  operators : List Text := []
  keywords : List Text := []

namespace Rebuilt

def push (r : Rebuilt) (chunk : Text) : Rebuilt := { r with chunks := chunk :: r.chunks }

def dropBlankChunks (chunks : List Text) : List Text :=
  chunks.dropWhile fun chunk => chunk == [' '] || chunk == ['\t']

def text (r : Rebuilt) : Text := r.chunks.reverse.flatten

end Rebuilt

def unaryContext : Text := "([\x7b,;=:?!&|+-*/%<>^~".toList

def unaryKeywords : List Text :=
  ["return", "case", "in", "and", "or", "not", "yield", "await", "throw", "else", "is", "lambda",
   "typeof", "new", "delete", "import", "operator"].map String.toList

/-- The name that ends a text, given from its last character back. -/
def lastName (reversed : Text) : Text :=
  (reversed.takeWhile isWordChar).reverse.dropWhile fun c => !(isAsciiLetter c || c == '_')

/-- Digits with at most one point, and a sign of the exponent, right before the end. -/
def exponentMark : Pattern :=
  .notAfter (fun c => isWordChar c || c == '.') ++ .plus .decimal ++
    .opt (.char '.' ++ .star .decimal) ++ .oneOf "eE" ++ .stop

/-- Whether the masked text before an operator, given from its end back, calls for an operand. -/
def expectsOperand (reversed : Text) : Bool :=
  match reversed.dropWhile isBlank with
  | [] => true
  | c :: rest => unaryContext.contains c || unaryKeywords.contains (lastName (c :: rest))

def inExponent (operator reversed : Text) : Bool :=
  (operator == ['+'] || operator == ['-']) && !reversed.head?.any isBlank &&
    exponentMark.occursIn reversed.reverse

/-- Whether an operator is kept as it stands. -/
def keeps (r : OperatorSpacing) (operator reversed : Text) (depth : Nat) (after : List Cell) :
    Bool :=
  r.table.verbatim.contains operator ||
    (r.keywordArguments && operator == ['='] && 0 < depth) ||
    expectsOperand reversed ||
    (inExponent operator reversed && after.head?.any fun cell => isDigit cell.masked)

def operatorAt? (tokens : List Text) (cells : List Cell) : Option Text :=
  tokens.find? fun token => (cells.take token.length).map (·.masked) == token

def depthAfter (depth : Nat) (c : Char) : Nat :=
  if ['(', '[', '{'].contains c then depth + 1
  else if [')', ']', '}'].contains c then depth - 1
  else depth

def startCell (s : Rebuilt) (cell : Cell) : Rebuilt :=
  match cell.keyword with
  | some keyword => { s.push [' '] with keywords := s.keywords ++ [keyword] }
  | none => s

/-- Rebuilds the cells; `reversed` holds the masked characters before them, the nearest first. -/
def rebuild (r : OperatorSpacing) (tokens : List Text) (reversed : Text) (depth : Nat)
    (s : Rebuilt) (cells : List Cell) : Rebuilt :=
  match cells with
  | [] => s
  | cell :: rest =>
      let s := startCell s cell
      if cell.isProtected then
        rebuild r tokens (cell.masked :: reversed) depth (s.push [cell.code]) rest
      else
        let depth := depthAfter depth cell.masked
        match operatorAt? tokens (cell :: rest) with
        | none => rebuild r tokens (cell.masked :: reversed) depth (s.push [cell.code]) rest
        | some operator =>
            let token := (cell :: rest).take operator.length
            let after := rest.drop (operator.length - 1)
            let passed := operator.reverse ++ reversed
            let tightBefore := !reversed.head?.any isBlank
            let tightAfter := after.head?.any fun next => !isBlank next.masked
            let unary := r.table.unaryCapable.contains operator
            if r.keeps operator reversed depth after || (unary && !(tightBefore && tightAfter)) then
              rebuild r tokens passed depth (s.push (token.map (·.code))) after
            else
              let s :=
                { s with
                  chunks := Rebuilt.dropBlankChunks s.chunks
                  operators :=
                    if tightBefore || tightAfter then s.operators ++ [operator] else s.operators }
              let blanks := after.takeWhile fun next => isSpaceOrTab next.masked
              let following := after.dropWhile fun next => isSpaceOrTab next.masked
              if following.isEmpty then
                rebuild r tokens passed depth (s.push (' ' :: operator)) after
              else
                rebuild r tokens ((blanks.map (·.masked)).reverse ++ passed) depth
                  (s.push (' ' :: operator ++ [' '])) following
termination_by cells.length
decreasing_by
  · simp
  · simp
  · simp +arith [List.length_drop]
  · simp +arith [List.length_drop]
  · have h :=
      (List.dropWhile_suffix (l := after) fun next : Cell => isSpaceOrTab next.masked).length_le
    simp only [after, List.length_drop] at h
    simp only [List.length_cons]
    omega

/-- A control keyword right before an opening parenthesis. -/
def keywordCall (keywords : List Text) : Pattern :=
  .notAfter (fun c => isWordChar c || c == '.' || c == '$') ++
    .group "keyword" (.choice (keywords.map Pattern.textPattern)) ++ .char '('

structure Normalized where
  line : Text
  operators : List Text
  keywords : List Text

/-- The line with its spacing mended, and the operators and keywords that were too tight. -/
def normalize (r : OperatorSpacing) (line : Text) : Normalized :=
  let (code, comment) := r.style.splitComment line
  let calls := ((keywordCall r.table.controlKeywords).findAll (r.style.maskLiterals code)).map
    fun m => (m.stop - 1, m.text "keyword")
  let cells := Cell.ofCode r.style r.generics (fun i => calls.lookup i) code
  let s := r.rebuild r.table.byLength [] 0 {} cells
  ⟨s.text ++ comment, s.operators, s.keywords⟩

/-- Whether a line is left out: blank, a comment, or marked by how it starts. -/
def skips (style : LiteralStyle) (skipped : List Text) (line : Text) : Bool :=
  let stripped := line.trim
  stripped.isEmpty || style.isCommentLine stripped || stripped.startsWithAny skipped

def check (r : OperatorSpacing) (index : Nat) (line : Text) : List Finding :=
  if skips r.style r.skipped line then []
  else
    let n := r.normalize line
    match n.operators, n.keywords with
    | operator :: _, _ => [{ index, replacement := n.line, fields := [("operator", operator)] }]
    | [], keyword :: _ =>
        [{ index
           replacement := n.line
           fields := [("operator", keyword)]
           message := "Missing space after '".toList ++ keyword ++ ['\''] }]
    | [], [] => []

def rule (r : OperatorSpacing) : Rule :=
  .ofCheck .operatorSpacing ⟨"formatOperatorSpacing", "style", "policy"⟩ (Rule.eachLine r.check)

end OperatorSpacing

end LineLint
