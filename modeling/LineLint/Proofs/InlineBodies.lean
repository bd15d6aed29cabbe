import LineLint.Proofs.CharacterClasses
import LineLint.Proofs.CutOffLines
import LineLint.Proofs.SoundRegistry
import LineLint.Proofs.TrimmedText

/-!
# Inline bodies

The body of a control structure may follow its header on the same line. The check takes all that
follows for the body: it puts braces around the statement together with what stands behind it, so
that statements which always ran, or an `else` of their own, become a part of the body.
-/

namespace LineLint

section Parentheses

/-- Whether a text closes each parenthesis that it opens and so many more, and none before it is
opened. -/
def closesParens : Nat → Text → Bool
  | depth, [] => depth == 0
  | depth, c :: rest =>
      if c == '(' then closesParens (depth + 1) rest
      else if c == ')' then depth != 0 && closesParens (depth - 1) rest
      else closesParens depth rest

/-- Behind a balanced text stands the parenthesis that closes the one before it. -/
theorem LineScan.closingParenFrom?_append_cons {t : Text} {depth : Nat}
    (h : closesParens depth t = true) (rest : Text) :
    closingParenFrom? (depth + 1) (t ++ ')' :: rest) = some t.length := by
  induction t generalizing depth with
  | nil =>
      obtain rfl : depth = 0 := by simpa [closesParens] using h
      rfl
  | cons c t ih =>
      rw [closesParens] at h
      rw [List.cons_append, closingParenFrom?]
      split_ifs at h ⊢ with hopen hclose hlast
      · have hnext := ih h
        rw [Int.natCast_succ] at hnext
        rw [hnext]
        rfl
      · have hdepth : depth ≠ 0 := bne_iff_ne.mp (Bool.and_eq_true_iff.mp h).1
        have hone := beq_iff_eq.mp hlast
        omega
      · simp only [Bool.and_eq_true, bne_iff_ne] at h
        have hdepth : ((depth - 1 : Nat) : Int) + 1 = depth + 1 - 1 := by omega
        rw [← hdepth, ih h.2]
        rfl
      · rw [ih h]
        rfl

theorem LineScan.closingParen?_eq {front t : Text} (h : closesParens 0 t = true) (rest : Text) :
    closingParen? (front ++ '(' :: (t ++ ')' :: rest)) front.length =
      some (front.length + t.length + 1) := by
  have hclose := closingParenFrom?_append_cons h rest
  rw [Int.natCast_zero, Int.zero_add] at hclose
  rw [closingParen?, List.drop_left, closingParenFrom?, if_pos (by decide), Int.zero_add, hclose]
  simp only [Option.map_some, Option.some.injEq]
  omega

end Parentheses

section Keywords

namespace ControlStructure

def keywords : List Text := ["if", "for", "foreach", "while", "switch"].map String.toList

open Pattern in
theorem matchStart?_controlKeyword {keyword rest : Text} (hkeyword : keyword ∈ keywords)
    (hrest : rest.head?.any isWordChar = false) :
    controlKeyword.matchStart? (keyword ++ rest) =
      some ⟨0, keyword.length, [("keyword", ⟨0, keyword ++ rest, keyword.length⟩)]⟩ := by
  have happend (p q : Pattern) : p ++ q = seq p q := rfl
  have hletters : isWordChar 'f' = true ∧ isWordChar 'r' = true ∧ isWordChar 'h' = true ∧
      isWordChar 'e' = true := by
    decide
  simp only [keywords, List.map_cons, List.map_nil, List.mem_cons, List.not_mem_nil,
    or_false] at hkeyword
  rcases hkeyword with rfl | rfl | rfl | rfl | rfl
  all_goals
    simp [matchStart?, first?, controlKeyword, happend, firstWith, Pattern.start, Edge.holds,
      Cursor.atStart, opt, text, textPattern, blanks1, plus, Pattern.words, choice, char,
      Cursor.step?, wordEdge, Cursor.record, matchOf, hrest, hletters]

theorem isMark_of_mem_keywords {keyword : Text} (h : keyword ∈ keywords) {c : Char}
    (hc : c ∈ keyword) : LiteralStyle.isMark c = false := by
  have hall : (keywords.all fun keyword => keyword.all fun c => !LiteralStyle.isMark c) = true := by
    decide
  simpa using List.all_eq_true.mp (List.all_eq_true.mp hall keyword h) c hc

theorem exists_cons_of_mem_keywords {keyword : Text} (h : keyword ∈ keywords) :
    ∃ c others, keyword = c :: others ∧ isBlank c = false := by
  simp only [keywords, List.map_cons, List.map_nil, List.mem_cons, List.not_mem_nil,
    or_false] at h
  rcases h with rfl | rfl | rfl | rfl | rfl
  all_goals exact ⟨_, _, rfl, by decide⟩

theorem parts?_eq {keyword gap inner : Text} (hkeyword : keyword ∈ keywords)
    (hgap : gap.allBlank = true) (hinner : closesParens 0 inner = true) (body rest : Text) :
    parts? body (keyword ++ gap ++ '(' :: (inner ++ ')' :: rest)) =
      some ⟨keyword, body.take ((keyword ++ gap).length + inner.length + 2),
        Text.trim (body.drop ((keyword ++ gap).length + inner.length + 2)), true, inner⟩ := by
  have hopened : (gap ++ '(' :: (inner ++ ')' :: rest)).trimLeft =
      '(' :: (inner ++ ')' :: rest) := by
    rw [Text.trimLeft_append_cons (by decide), Text.trimLeft,
      List.dropWhile_eq_nil_iff.mpr (List.all_eq_true.mp hgap), List.nil_append]
  have hbehind : (gap ++ '(' :: (inner ++ ')' :: rest)).head?.any isWordChar = false := by
    cases gap with
    | nil => exact (by decide : isWordChar '(' = false)
    | cons c more => exact isWordChar_of_isBlank (Bool.and_eq_true_iff.mp hgap).1
  have hstart : (keyword ++ (gap ++ '(' :: (inner ++ ')' :: rest))).length -
      ('(' :: (inner ++ ')' :: rest)).length = (keyword ++ gap).length := by
    simp only [List.length_append]
    omega
  have hinside : Text.slice (keyword ++ gap ++ '(' :: (inner ++ ')' :: rest))
      ((keyword ++ gap).length + 1) ((keyword ++ gap).length + inner.length + 1) = inner := by
    have hcut : keyword ++ gap ++ '(' :: (inner ++ ')' :: rest) =
        keyword ++ gap ++ ['('] ++ inner ++ ')' :: rest := by
      simp
    have hopening : (keyword ++ gap ++ ['(']).length = (keyword ++ gap).length + 1 := by
      rw [List.length_append, List.length_singleton]
    have hclosing : (keyword ++ gap ++ ['('] ++ inner).length =
        (keyword ++ gap).length + inner.length + 1 := by
      rw [List.length_append, hopening, Nat.add_right_comm]
    rw [Text.slice, hcut, List.take_left' hclosing, List.drop_left' hopening]
  have hkeyword' : Match.text ⟨0, keyword.length, [("keyword",
      ⟨0, keyword ++ (gap ++ '(' :: (inner ++ ')' :: rest)), keyword.length⟩)]⟩ "keyword" =
        keyword :=
    List.take_left
  have hclose := @LineScan.closingParen?_eq (keyword ++ gap) inner hinner rest
  rw [List.append_assoc] at hinside hclose ⊢
  simp only [parts?, matchStart?_controlKeyword hkeyword hbehind, Option.bind_eq_bind,
    Option.bind_some, List.drop_left, hopened, hstart, List.head?_cons, BEq.rfl, if_true, hclose,
    hinside, hkeyword']
  rfl

end ControlStructure

end Keywords

namespace ControlStructure

section Lines

variable {r : ControlStructure} {lines : List Text} {i : Nat} {line new : Text}
  {found : List Finding} {f : Finding}

theorem index_of_mem_single {g : Finding}
    (h : Except.ok [g] = (Except.ok found : Except Fault (List Finding))) (hf : f ∈ found) :
    f.index = g.index := by
  obtain rfl := Except.ok.inj h
  exact congrArg Finding.index (List.mem_singleton.mp hf)

section Parts

variable {p : Parts} {trailer : Text}

theorem index_of_mem_withoutBody (h : r.withoutBody lines i line p trailer = .ok found)
    (hf : f ∈ found) : f.index = i := by
  have hsketched {header : Text}
      (h : (do return [{ index := i, replacement := ← r.skeleton header trailer }]) =
        Except.ok found) : f.index = i := by
    obtain ⟨sketch, -, hfound⟩ := bind_eq_ok_iff.mp h
    exact index_of_mem_single hfound hf
  simp only [withoutBody] at h
  split at h
  · split_ifs at h
    · obtain rfl := Except.ok.inj h
      cases hf
    · exact index_of_mem_single h hf
  · split at h
    · obtain ⟨nested, -, h⟩ := bind_eq_ok_iff.mp h
      split_ifs at h
      · exact index_of_mem_single h hf
      · exact hsketched h
    · exact hsketched h

theorem index_of_mem_checkParts (h : r.checkParts lines i line p trailer = .ok found)
    (hf : f ∈ found) : f.index = i := by
  simp only [checkParts] at h
  split_ifs at h
  · obtain rfl := Except.ok.inj h
    cases hf
  · exact index_of_mem_single h hf
  · obtain rfl := Except.ok.inj h
    cases hf
  · exact index_of_mem_single h hf
  · exact index_of_mem_single h hf
  · exact index_of_mem_withoutBody h hf

end Parts

theorem index_of_mem_checkLine (h : r.checkLine lines i line = .ok found) (hf : f ∈ found) :
    f.index = i := by
  simp only [checkLine] at h
  split at h
  · obtain rfl := Except.ok.inj h
    cases hf
  · exact index_of_mem_checkParts h hf

theorem replaces_iff (hunit : Indentation.IsUsable r.unit) :
    r.rule.Replaces lines i new ↔ ∃ line, lines[i]? = some line ∧ ∃ found,
      r.checkLine lines i line = .ok found ∧ ∃ f ∈ found, f.replacement = some new := by
  have hsound : r.rule.IsSound := isSound hunit
  refine (Rule.replaces_ofFindings_iff hsound).trans ?_
  constructor
  · rintro ⟨found, hfound, f, hf, rfl, hnew⟩
    obtain ⟨i, line, group, hline, hcheck, hgroup⟩ := (Rule.mem_eachLineOrFail hfound).mp hf
    obtain rfl := index_of_mem_checkLine hcheck hgroup
    exact ⟨line, hline, group, hcheck, f, hgroup, hnew⟩
  · rintro ⟨line, hline, group, hcheck, f, hgroup, hnew⟩
    obtain ⟨ds, hrun⟩ := hsound.runs lines
    obtain ⟨found, hfound, -⟩ := bind_eq_ok_iff.mp hrun
    exact ⟨found, hfound, f, (Rule.mem_eachLineOrFail hfound).mpr ⟨i, line, group, hline, hcheck,
      hgroup⟩, index_of_mem_checkLine hcheck hgroup, hnew⟩

end Lines

theorem isEmptyStatement_cons {c : Char} (hc : isBlank c = false) (hne : c ≠ ';') (t : Text) :
    isEmptyStatement (c :: t) = false := by
  have hfirst : (c :: t).dropWhile (· == ';') = c :: t :=
    List.dropWhile_cons_of_neg (p := (· == ';')) (by simpa using hne)
  have hkept : c ∈ Text.dropRightWhile (· == ';') (c :: t) := by
    have hmem : c ∈ (c :: t).rdropWhile (· == ';') ++ (c :: t).rtakeWhile (· == ';') := by
      rw [List.rdropWhile_append_rtakeWhile]
      exact List.mem_cons_self
    refine (List.mem_append.mp hmem).resolve_right fun htail => hne ?_
    exact beq_iff_eq.mp (List.mem_rtakeWhile_imp (p := (· == ';')) htail)
  have hblank : Text.allBlank (Text.dropRightWhile (· == ';') (c :: t)) = false :=
    List.all_eq_false.mpr ⟨c, hkept, by simp [hc]⟩
  rw [isEmptyStatement, hfirst, hblank, Bool.and_false]

/-- A line with a control structure whose body is a statement on the same line, and with more behind
that statement. -/
structure InlineBody (style : LiteralStyle) where
  lead : Text
  keyword : Text
  gap : Text
  condition : Text
  statement : Text
  rest : Text
  lead_blank : lead.allBlank = true
  keyword_mem : keyword ∈ keywords
  gap_blank : gap.allBlank = true
  condition_whole : style.IsWhole condition
  condition_closes : closesParens 0 (style.maskLiterals condition) = true
  statement_notBlank : statement.allBlank = false
  statement_single : ';' ∉ statement
  statement_bare : '{' ∉ statement
  rest_notBlank : rest.allBlank = false
  comment : (style.splitComment (statement ++ ';' :: rest)).2 = []

structure IsPlain (r : ControlStructure) : Prop where
  ordinary : r.style.IsOrdinary
  opening : r.style.PassesOver '('
  closing : r.style.PassesOver ')'
  unit : Indentation.IsUsable r.unit

namespace InlineBody

section Reading

variable {style : LiteralStyle} (b : InlineBody style)

def header : Text := b.keyword ++ b.gap ++ '(' :: (b.condition ++ [')'])

def behind : Text := b.statement ++ ';' :: b.rest

def line : Text := b.lead ++ (b.header ++ b.behind)

/-- Whether the condition is one that the keyword takes: only that of a `for` is looked at. -/
def takesCondition : Bool :=
  b.keyword != "for".toList || isForHeader (style.maskLiterals b.condition)

theorem length_header : b.header.length = (b.keyword ++ b.gap).length + b.condition.length + 2 := by
  simp only [header, List.length_append, List.length_cons, List.length_nil]
  omega

theorem trimRight_append_rest (front : Text) :
    (front ++ ';' :: b.rest).trimRight = front ++ ';' :: b.rest.trimRight := by
  rw [← List.singleton_append, ← List.append_assoc, Text.trimRight_append b.rest_notBlank,
    List.append_assoc, List.singleton_append]

theorem trim_behind : b.behind.trim = b.statement.trimLeft ++ ';' :: b.rest.trimRight := by
  rw [behind, Text.trim, Text.trimLeft_append_cons (by decide), trimRight_append_rest]

theorem trim_line : b.line.trim = b.header ++ b.behind.trimRight := by
  obtain ⟨c, others, hkeyword, hc⟩ := exists_cons_of_mem_keywords b.keyword_mem
  have hfirst : (b.header ++ b.behind).trimLeft = b.header ++ b.behind := by
    rw [header, hkeyword]
    exact List.dropWhile_cons_of_neg (Bool.not_eq_true _ ▸ hc)
  rw [line, Text.trim_append_left b.lead_blank, Text.trim, hfirst, behind, ← List.append_assoc,
    trimRight_append_rest, trimRight_append_rest, List.append_assoc]

theorem line_eq : b.line = b.lead ++ (b.keyword ++ b.gap ++ ['(']) ++
    (b.condition ++ ')' :: b.behind) := by
  simp [line, header]

/-- What follows a header begins with the statement, not with a brace or a terminator. -/
theorem exists_trim_behind_eq_cons : ∃ c others, b.behind.trim = c :: others ∧ isBlank c = false ∧
    c ≠ ';' ∧ c ≠ '{' := by
  obtain ⟨c, others, hfirst, hmem, hblank⟩ := Text.exists_trimLeft_eq_cons b.statement_notBlank
  refine ⟨c, others ++ ';' :: b.rest.trimRight, ?_, hblank, ?_, ?_⟩
  · rw [trim_behind, hfirst, List.cons_append]
  · rintro rfl
    exact b.statement_single hmem
  · rintro rfl
    exact b.statement_bare hmem

end Reading

section Check

variable {r : ControlStructure} (hr : r.IsPlain) (b : InlineBody r.style)
include hr

theorem passesOver_front : ∀ c ∈ b.keyword ++ b.gap ++ ['('], r.style.PassesOver c := by
  intro c hc
  rcases List.mem_append.mp hc with hc | hc
  · rcases List.mem_append.mp hc with hc | hc
    · exact hr.ordinary.passesOver (isMark_of_mem_keywords b.keyword_mem hc)
    · exact hr.ordinary.passesOver_of_allBlank b.gap_blank c hc
  · rw [List.mem_singleton.mp hc]
    exact hr.opening

theorem splitComment_line : r.style.splitComment b.line = (b.line, []) := by
  have hbehind : (r.style.splitComment (')' :: b.behind)).2 = [] := by
    have htail := LiteralStyle.splitComment_trail_append hr.ordinary
      (List.forall_mem_singleton.mpr hr.closing) b.behind
    rw [List.singleton_append] at htail
    rw [htail]
    exact b.comment
  have hcode : (r.style.splitComment b.line).2 = [] := by
    rw [line_eq, LiteralStyle.splitComment_trail_append hr.ordinary,
      b.condition_whole.splitComment_append_cons hr.ordinary hr.closing]
    · exact hbehind
    · intro c hc
      rcases List.mem_append.mp hc with hc | hc
      · exact hr.ordinary.passesOver_of_allBlank b.lead_blank c hc
      · exact passesOver_front hr b c hc
  have hparts := r.style.splitComment_append b.line
  rw [hcode, List.append_nil] at hparts
  exact Prod.ext hparts hcode

theorem maskLiterals_header_append (t : Text) :
    r.style.maskLiterals (b.header ++ t) = b.keyword ++ b.gap ++
      '(' :: (r.style.maskLiterals b.condition ++ ')' :: r.style.maskLiterals t) := by
  have hheader : b.header ++ t = b.keyword ++ b.gap ++ ['('] ++ (b.condition ++ ')' :: t) := by
    simp [header]
  have hclosing := LiteralStyle.maskLiterals_trail_append hr.ordinary
    (List.forall_mem_singleton.mpr hr.closing) t
  rw [List.singleton_append, List.singleton_append] at hclosing
  rw [hheader, LiteralStyle.maskLiterals_trail_append hr.ordinary (passesOver_front hr b),
    b.condition_whole.maskLiterals_append_cons hr.ordinary hr.closing, hclosing, List.append_assoc,
    List.singleton_append]

theorem parts?_line : parts? b.line.trim (r.style.maskLiterals b.line.trim) =
    some ⟨b.keyword, b.header, b.behind.trim, true, r.style.maskLiterals b.condition⟩ := by
  have hlength : (r.style.maskLiterals b.condition).length = b.condition.length :=
    List.length_mapIdx
  rw [trim_line, maskLiterals_header_append hr,
    parts?_eq b.keyword_mem b.gap_blank b.condition_closes, hlength, ← length_header,
    List.take_left, List.drop_left, Text.trim_trimRight]

/-- The whole of what follows the header is taken for the body. -/
theorem checkLine_eq (lines : List Text) (i : Nat) :
    r.checkLine lines i b.line = .ok
      [if b.takesCondition then
        { index := i
          replacement := b.header ++ " \x7b ".toList ++ b.behind.trim ++ " \x7d".toList }
      else
        { index := i
          message :=
            "Invalid for loop header: expected 'init; condition; increment'".toList }] := by
  obtain ⟨c, others, hbehind, hblank, hsemicolon, hbrace⟩ := b.exists_trim_behind_eq_cons
  have hbody : (some c == some '{') = false := by simpa using hbrace
  have hloop : (b.keyword == "for".toList && !isForHeader (r.style.maskLiterals b.condition)) =
      !b.takesCondition := by
    rw [takesCondition, Bool.not_or, bne, Bool.not_not]
  simp only [checkLine, splitComment_line hr, parts?_line hr, checkParts, hbehind,
    isEmptyStatement_cons hblank hsemicolon, List.head?_cons, hbody, List.isEmpty_cons,
    List.isEmpty_nil, Bool.true_and, hloop]
  cases b.takesCondition with
  | false => rfl
  | true => simp

end Check

end InlineBody

section Builtin

def builtin : List ControlStructure :=
  [{ style := CSharp.profile.style, unit := CSharp.profile.indentUnit },
   { style := Java.profile.style, unit := Java.profile.indentUnit },
   { style := Cpp.profile.style, unit := Cpp.profile.indentUnit },
   { braceStyle := .sameLine, style := JavaScript.profile.style
     unit := JavaScript.profile.indentUnit }]

theorem perm_registered :
    (builtin.map fun r => (r.style, r.rule)).Perm (Registry.registered Spec.controlStructure.code) :=
  .of_eq rfl

theorem isPlain_of_mem_builtin : ∀ r ∈ builtin, r.IsPlain := by
  simp only [builtin, List.forall_mem_cons]
  refine ⟨?_, ?_, ?_, ?_, List.forall_mem_nil _⟩
  all_goals exact ⟨by decide, by decide, by decide, Indentation.isUsable_four⟩

/-- A control structure with a statement behind its header is given braces, and whatever stands
behind the statement is put into them, too. -/
theorem replaces_iff_wraps_rest {r : ControlStructure} (hr : r ∈ builtin) (b : InlineBody r.style)
    {lines : List Text} {i : Nat} (hline : lines[i]? = some b.line) (new : Text) :
    r.rule.Replaces lines i new ↔ b.takesCondition = true ∧
      new = b.header ++ " \x7b ".toList ++ b.statement.trimLeft ++ ';' :: b.rest.trimRight ++
        " \x7d".toList := by
  have hplain := isPlain_of_mem_builtin r hr
  have hnew : b.header ++ " \x7b ".toList ++ b.statement.trimLeft ++ ';' :: b.rest.trimRight ++
      " \x7d".toList = b.header ++ " \x7b ".toList ++ b.behind.trim ++ " \x7d".toList := by
    rw [b.trim_behind]
    simp only [List.append_assoc]
  rw [replaces_iff hplain.unit, hnew]
  simp only [hline, Option.some.injEq, exists_eq_left', b.checkLine_eq hplain, Except.ok.injEq,
    List.mem_singleton, exists_eq_left]
  cases b.takesCondition with
  | false => simp
  | true => simp [eq_comm]

def callAndLog : InlineBody CSharp.profile.style where
  lead := "    ".toList
  keyword := "if".toList
  gap := " ".toList
  condition := "ready".toList
  statement := " start()".toList
  rest := " log();".toList
  lead_blank := by decide
  keyword_mem := by decide
  gap_blank := by decide
  condition_whole := ⟨by decide +kernel, by decide +kernel⟩
  condition_closes := by decide +kernel
  statement_notBlank := by decide
  statement_single := by decide
  statement_bare := by decide
  rest_notBlank := by decide
  comment := by decide +kernel

theorem replaces_iff_wraps_rest_callAndLog :
    let r : ControlStructure := { style := CSharp.profile.style, unit := CSharp.profile.indentUnit }
    r ∈ builtin ∧ [callAndLog.line][0]? = some callAndLog.line ∧
      callAndLog.line = "    if (ready) start(); log();".toList ∧
      r.rule.Replaces [callAndLog.line] 0 "if (ready) \x7b start(); log(); \x7d".toList := by
  intro r
  have hr : r ∈ builtin := by simp [builtin, r]
  have hline : [callAndLog.line][0]? = some callAndLog.line := rfl
  exact ⟨hr, hline, by decide, (replaces_iff_wraps_rest hr callAndLog hline _).mpr
    ⟨by decide, by decide⟩⟩

end Builtin

end ControlStructure

end LineLint
