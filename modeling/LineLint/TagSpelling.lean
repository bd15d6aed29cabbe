import LineLint.EditDistance
import LineLint.TagChecks

/-!
# Spelling of tags

A tag that is not known but close to a known one is reported as a likely misspelling. Candidates
are ranked by distance, then by how near their length is, then by whether they start with the same
letter, and last by their characters.
-/

namespace LineLint

def knownTags : List Text :=
  ["html", "head", "body", "title", "meta", "link", "style", "script", "noscript", "base", "div",
   "span", "p", "a", "img", "br", "hr", "pre", "code", "blockquote", "b", "i", "u", "s", "em",
   "strong", "small", "sub", "sup", "abbr", "cite", "q", "table", "thead", "tbody", "tfoot", "tr",
   "td", "th", "caption", "colgroup", "col", "ul", "ol", "li", "dl", "dt", "dd", "h1", "h2", "h3",
   "h4", "h5", "h6", "form", "input", "button", "select", "option", "optgroup", "textarea",
   "label", "fieldset", "legend", "output", "progress", "meter", "datalist", "header", "footer",
   "nav", "section", "article", "aside", "main", "address", "figure", "figcaption", "details",
   "summary", "dialog", "mark", "time", "template", "audio", "video", "source", "track", "canvas",
   "iframe", "embed", "object", "param", "picture", "map", "area", "wbr", "svg", "path", "circle",
   "rect", "line", "polygon", "polyline", "ellipse", "g", "text"].map String.toList

structure TagSpelling where
  known : List Text := knownTags
  maxDistance : Int := 2

namespace TagSpelling

/-- What a candidate is ranked by. -/
structure Score where
  distance : Nat
  lengthGap : Nat
  otherLetter : Bool
  candidate : Text

def textLe : Text → Text → Bool
  | [], _ => true
  | _ :: _, [] => false
  | a :: s, b :: t => a < b || (a == b && textLe s t)

def Score.le (s t : Score) : Bool :=
  if s.distance != t.distance then s.distance < t.distance
  else if s.lengthGap != t.lengthGap then s.lengthGap < t.lengthGap
  else if s.otherLetter != t.otherLetter then t.otherLetter
  else textLe s.candidate t.candidate

/-- The score of a candidate that is close enough. Its first letter is compared, so neither text
may be empty. -/
def score? (r : TagSpelling) (name candidate : Text) : Except Fault (Option Score) :=
  let distance := editDistance name candidate
  if r.maxDistance < distance then .ok none
  else match name, candidate with
    | a :: _, b :: _ =>
        let gap := (Int.ofNat candidate.length - Int.ofNat name.length).natAbs
        .ok (some ⟨distance, gap, a != b, candidate⟩)
    | _, _ => .error .textIndex

/-- The known tags close to a name, the best first. -/
def similar (r : TagSpelling) (name : Text) : Except Fault (List Text) := do
  let scores ← r.known.eraseDups.mapM (r.score? name)
  return ((scores.filterMap id).mergeSort Score.le).map (·.candidate)

def isSuspect (r : TagSpelling) (name : Text) : Bool :=
  !r.known.contains name && 2 < name.length && !name.contains '-'

/-- The line with every tag of a name respelled, the last one first. -/
def respell (line : Text) (tags : List Tag) (name new : Text) : Text :=
  tags.foldr (fun t line =>
    if t.lowerName == name then Text.splice line t.nameStart t.nameStop new else line) line

def checkName (r : TagSpelling) (index : Nat) (line : Text) (tags : List Tag) (name : Text) :
    Except Fault (List Finding) := do
  match ← r.similar name with
  | [] => return []
  | best :: others =>
      return [{
        index
        replacement := respell line tags name best
        fields := [("tag", name), ("suggestion", Fault.commaList (best :: others))] }]

def checkLine (r : TagSpelling) (index : Nat) (line : Text) (tags : List Tag) :
    Except Fault (List Finding) := do
  let names := ((tags.map (·.lowerName)).filter r.isSuspect).eraseDups
  return (← names.mapM (r.checkName index line tags)).flatten

def check (r : TagSpelling) (lines : List Text) : Except Fault (List Finding) := do
  let found ← (lines.zip (MarkupComment.blank lines)).zipIdx.mapM
    fun ((line, blanked), index) => r.checkLine index line (Tag.all blanked)
  return found.flatten

def rule (r : TagSpelling) : Rule :=
  .ofFindings .tagSpelling ⟨"htmlTagSpelling", "heuristic", "heuristic"⟩ r.check

end TagSpelling

end LineLint
