import LineLint.Proofs.CutOffCode
import LineLint.Proofs.OperatorPlaces
import LineLint.Proofs.SoundLayout
import LineLint.Registry

/-!
# Terminators of statements that are cut off

A terminator is put behind the code of a line. Where a literal is open there, it goes into the
literal: the line shows the same code as before, and it is asked for a terminator again and again.
Behind any other line the terminator stands in the code, and the line is not asked for another.
-/

namespace LineLint

namespace LiteralStyle

def blockOpen : Bool → Text → Bool
  | inside, [] => inside
  | false, '/' :: '*' :: rest => blockOpen true rest
  | true, '*' :: '/' :: rest => blockOpen false rest
  | inside, _ :: rest => blockOpen inside rest

def leavesBlockOpen (style : LiteralStyle) (masked : Text) : Bool :=
  style.blockComments && blockOpen false masked

/-- A place in the code of a line: in no literal, and in no comment of either kind. -/
structure StandsInCode (style : LiteralStyle) (line : Text) (i : Nat) : Prop
    extends style.IsInCode line i where
  outsideBlocks : style.leavesBlockOpen ((style.maskLiterals line).take i) = false

end LiteralStyle

namespace Terminator

open LiteralStyle (SameCode)

variable {r : Terminator} {t t' line new : Text} {lines : List Text} {i : Nat}

/-- The terminator is a semicolon, which is passed over, and quotes play no part in how lines are
exempted. -/
structure IsPlain (r : Terminator) : Prop where
  terminator : r.terminator = [';']
  ordinary : r.style.IsOrdinary
  passed : r.style.PassesOver ';'
  quotes : ∀ quote ∈ r.style.quotes, quote ∈ ['"', '\'', '`']
  starts : ∀ part ∈ r.directives ++ r.exemptStarts, ∀ quote ∈ r.style.quotes, quote ∉ part

def checksQuotes (r : Terminator) : Bool :=
  r.style.quotes.all ['"', '\'', '`'].contains &&
    (r.directives ++ r.exemptStarts).all fun part =>
      r.style.quotes.all fun quote => !part.contains quote

theorem isPlain_of_checksQuotes (hterminator : r.terminator = [';'])
    (hordinary : r.style.IsOrdinary) (hpassed : r.style.PassesOver ';')
    (h : r.checksQuotes = true) : r.IsPlain := by
  obtain ⟨hquotes, hstarts⟩ := Bool.and_eq_true_iff.mp h
  refine ⟨hterminator, hordinary, hpassed, fun quote hquote => ?_,
    fun part hpart quote hquote => ?_⟩
  · exact List.contains_iff_mem.mp (List.all_eq_true.mp hquotes quote hquote)
  · simpa using List.all_eq_true.mp (List.all_eq_true.mp hstarts part hpart) quote hquote

section Code

def endsWithOperator (t : Text) : Bool :=
  t.getLast?.any trailingOperators.contains && !t.endsWithAny [['+', '+'], ['-', '-']]

theorem staysBefore_of_isPlain (hr : r.IsPlain) {p : Pattern}
    (hp : ['"', '\'', '`'].all p.staysBefore = true) :
    ∀ quote ∈ r.style.quotes, p.staysBefore quote = true ∧ quote ≠ '\n' := by
  intro quote hquote
  refine ⟨List.all_eq_true.mp hp quote (hr.quotes quote hquote), fun hline => ?_⟩
  have hordinary := hr.quotes quote hquote
  rw [hline] at hordinary
  revert hordinary
  decide

theorem notMem_quotes_of_isPlain (hr : r.IsPlain) {c : Char} (hc : c ∉ ['"', '\'', '`']) :
    c ∉ r.style.quotes :=
  fun hquote => hc (hr.quotes c hquote)

variable (hr : r.IsPlain) (h : r.style.SameCode t t')
include hr h

theorem getLast?_congr {c : Char} (hc : c ∉ ['"', '\'', '`', maskChar]) :
    t.getLast? = some c ↔ t'.getLast? = some c := by
  refine h.getLast?_eq_some_iff (notMem_quotes_of_isPlain hr fun hquote => hc ?_) fun hmask => hc ?_
  · exact List.mem_append_left [maskChar] hquote
  · rw [hmask]
    exact List.mem_append_right ['"', '\'', '`'] (List.mem_singleton_self _)

theorem occursIn_congr {p : Pattern} (hp : ['"', '\'', '`'].all p.staysBefore = true) :
    p.occursIn t = p.occursIn t' :=
  h.eq_of_forall fun quote hquote front n n' =>
    have hquote := staysBefore_of_isPlain hr hp quote hquote
    Pattern.occursIn_cutOff hquote.1 hquote.2 front n n'

theorem matchesStart_congr {p : Pattern} (hp : ['"', '\'', '`'].all p.staysBefore = true) :
    p.matchesStart t = p.matchesStart t' :=
  h.eq_of_forall fun quote hquote front n n' =>
    have hquote := staysBefore_of_isPlain hr hp quote hquote
    Pattern.matchesStart_cutOff hquote.1 hquote.2 front n n'

theorem occursIn_one_congr {p : Pattern} (hp : ['"', '\'', '`'].all p.staysBefore = true)
    {class' : Char → Bool} : (p ++ .one class').occursIn t = (p ++ .one class').occursIn t' :=
  h.eq_of_forall fun quote hquote front n n' =>
    have hquote := staysBefore_of_isPlain hr hp quote hquote
    Pattern.occursIn_one_cutOff hquote.1 hquote.2 front n n'

theorem occursIn_stop_congr {p : Pattern} (hp : ['"', '\'', '`'].all p.staysBefore = true) :
    (p ++ .stop).occursIn t = (p ++ .stop).occursIn t' := by
  refine h.eq_of_forall fun quote hquote front n n' hmatch => ?_
  have hquote := staysBefore_of_isPlain hr hp quote hquote
  rw [Pattern.occursIn_stop_eq_false hquote.1 hquote.2] at hmatch
  cases hmatch

theorem callAtEnd_congr : callAtEnd.occursIn t = callAtEnd.occursIn t' := by
  refine h.eq_of_forall fun quote hquote front n n' hmatch => ?_
  have hne {c : Char} (hc : c ∉ ['"', '\'', '`']) (hmask : c ≠ maskChar) :=
    LiteralStyle.getLast?_cutOff_ne hquote (notMem_quotes_of_isPlain hr hc) hmask front n
  rcases Pattern.getLast?_of_occursIn_stop hmatch with hlast | hlast
  · exact absurd hlast (hne (by decide) (by decide))
  · exact absurd hlast (hne (by decide) (by decide))

theorem statements_congr :
    (statements.any fun p => p.occursIn t) = statements.any fun p => p.occursIn t' := by
  simp only [statements, List.any_cons, List.any_nil]
  rw [occursIn_congr hr h (p := assignment) (by decide +kernel), callAtEnd_congr hr h,
    occursIn_congr hr h (p := jump) (by decide +kernel),
    show postIncrement.occursIn t = postIncrement.occursIn t' from
      occursIn_stop_congr hr h (by decide +kernel),
    show preIncrement.occursIn t = preIncrement.occursIn t' from
      occursIn_stop_congr hr h (by decide +kernel),
    occursIn_congr hr h (p := creation) (by decide +kernel),
    show streaming.occursIn t = streaming.occursIn t' from
      occursIn_one_congr hr h (by decide +kernel),
    show bareDeclaration.occursIn t = bareDeclaration.occursIn t' from
      occursIn_stop_congr hr h (by decide +kernel)]

theorem endsWithOperator_congr : endsWithOperator t = endsWithOperator t' := by
  refine h.eq_of_forall fun quote hquote front n n' hoperator => ?_
  obtain ⟨c, hlast, hc⟩ := (Option.any_eq_true _ _).mp (Bool.and_eq_true_iff.mp hoperator).1
  have hshown : (trailingOperators.all fun c =>
      !(['"', '\'', '`'].contains c) && c != maskChar) = true := by
    decide
  obtain ⟨hquotes, hmask⟩ : c ∉ ['"', '\'', '`'] ∧ c ≠ maskChar := by
    simpa using List.all_eq_true.mp hshown c (List.contains_iff_mem.mp hc)
  exact absurd hlast (LiteralStyle.getLast?_cutOff_ne hquote (notMem_quotes_of_isPlain hr hquotes)
    hmask front n)

/-- Whether a statement lacks its terminator is told by what its code shows. -/
theorem needsTerminator_congr : r.needsTerminator t = r.needsTerminator t' := by
  have hsuffix : r.terminator.isSuffixOf t = r.terminator.isSuffixOf t' := by
    rw [hr.terminator, Bool.eq_iff_iff, List.isSuffixOf_iff_suffix, List.isSuffixOf_iff_suffix,
      List.singleton_suffix_iff_getLast?_eq_some, List.singleton_suffix_iff_getLast?_eq_some,
      getLast?_congr hr h (by decide)]
  have hdirectives := h.startsWithAny_eq fun part hpart =>
    hr.starts part (List.mem_append_left r.exemptStarts hpart)
  have hexempt := h.startsWithAny_eq fun part hpart =>
    hr.starts part (List.mem_append_right r.directives hpart)
  have husing : t.startsWithAny usingBlock = t'.startsWithAny usingBlock := by
    have hfree : (usingBlock.all fun part =>
        ['"', '\'', '`'].all fun quote => !part.contains quote) = true := by
      decide
    refine h.startsWithAny_eq fun part hpart quote hquote => ?_
    simpa using
      List.all_eq_true.mp (List.all_eq_true.mp hfree part hpart) quote (hr.quotes quote hquote)
  have hequals : t.contains '=' = t'.contains '=' := by
    rw [Bool.eq_iff_iff, List.contains_iff_mem, List.contains_iff_mem, h.mem_iff (by decide)]
  have hbalance : LineScan.bracketBalance t = LineScan.bracketBalance t' := by
    rw [LineScan.bracketBalance, LineScan.bracketBalance, h.count_eq (by decide),
      h.count_eq (by decide), h.count_eq (by decide), h.count_eq (by decide)]
  have hoperator : (t.getLast?.any trailingOperators.contains &&
      !t.endsWithAny [['+', '+'], ['-', '-']]) =
        (t'.getLast?.any trailingOperators.contains && !t'.endsWithAny [['+', '+'], ['-', '-']]) :=
    endsWithOperator_congr hr h
  rw [needsTerminator, needsTerminator, hsuffix, hoperator, hdirectives, husing, hexempt,
    h.head?_eq, matchesStart_congr hr h (p := blockHeader) (by decide +kernel),
    occursIn_congr hr h (p := typeDeclaration) (by decide +kernel), hequals, hbalance,
    statements_congr hr h]

end Code

section Lines

/-- The code of a line up to the place where its terminator belongs. -/
def body (r : Terminator) (line : Text) : Text := (r.style.splitComment line).1.trimRight

def behind (r : Terminator) (line : Text) : Text :=
  (r.style.splitComment line).1.trailingBlanks ++ (r.style.splitComment line).2

theorem body_append_behind (r : Terminator) (line : Text) :
    r.body line ++ r.behind line = line := by
  rw [body, behind, ← List.append_assoc, Text.trimRight_append_trailingBlanks,
    r.style.splitComment_append]

theorem take_body (r : Terminator) (line : Text) : line.take (r.body line).length = r.body line :=
  (List.prefix_iff_eq_take.mp ⟨_, r.body_append_behind line⟩).symm

theorem drop_body (r : Terminator) (line : Text) : line.drop (r.body line).length = r.behind line :=
  (congrArg (List.drop (r.body line).length) (r.body_append_behind line)).symm.trans List.drop_left

theorem terminate_eq (hr : r.IsPlain) (line : Text) :
    r.terminate line = r.body line ++ ';' :: r.behind line := by
  have hblanks : (r.style.splitComment line).1.drop (r.body line).length =
      (r.style.splitComment line).1.trailingBlanks := by
    conv_lhs => rw [← Text.trimRight_append_trailingBlanks (r.style.splitComment line).1]
    exact List.drop_left
  have hparts : r.terminate line = r.body line ++ r.terminator ++
      (r.style.splitComment line).1.drop (r.body line).length ++ (r.style.splitComment line).2 :=
    rfl
  rw [hparts, hblanks, hr.terminator, behind]
  simp

def code (r : Terminator) (line : Text) : Text := Text.trim (r.style.codeMask line)

def lacks (r : Terminator) (line : Text) : Bool :=
  !line.trim.isEmpty && !r.style.isCommentLine line.trim && !(r.code line).isEmpty &&
    r.needsTerminator (r.code line)

def goesOn (lines : List Text) (i : Nat) : Bool :=
  (((LineScan.nextCode? lines (i + 1)).bind fun k => lines[k]?).getD []).trim.startsWithAny
    continuations

/-- Whether a statement may start and end on the line, by the lines around it. -/
def StandsAlone (r : Terminator) (lines : List Text) (i : Nat) : Prop :=
  (LineScan.continued r.style lines)[i]? = some false ∧ goesOn lines i = false

theorem checkLine_eq (r : Terminator) (lines : List Text) (i : Nat) (line : Text)
    (continued : Bool) :
    r.checkLine lines i line continued =
      if r.lacks line && !continued && !goesOn lines i then
        [{ index := i, replacement := r.terminate line }]
      else [] := by
  have hlacks : (line.trim.isEmpty || continued || r.style.isCommentLine line.trim ||
      (r.code line).isEmpty || !r.needsTerminator (r.code line)) =
        !(r.lacks line && !continued) := by
    rw [lacks]
    cases line.trim.isEmpty <;> cases continued <;> simp
  change (if (line.trim.isEmpty || continued || r.style.isCommentLine line.trim ||
    (r.code line).isEmpty || !r.needsTerminator (r.code line)) = true then [] else
      if goesOn lines i = true then [] else _) = _
  rw [hlacks]
  cases r.lacks line && !continued <;> cases goesOn lines i <;> rfl

theorem mem_check_iff {f : Finding} :
    f ∈ r.check lines ↔ ∃ i line, lines[i]? = some line ∧ r.StandsAlone lines i ∧
      r.lacks line = true ∧ f = { index := i, replacement := r.terminate line } := by
  simp only [check, List.mem_flatMap, Prod.exists, List.mem_zipIdx_iff_getElem?,
    List.getElem?_zip_eq_some, checkLine_eq, List.mem_ite_nil_right, List.mem_singleton,
    Bool.and_eq_true, Bool.not_eq_true', StandsAlone]
  constructor
  · rintro ⟨line, continued, i, ⟨hline, hflag⟩, ⟨⟨hlacks, rfl⟩, hgoes⟩, rfl⟩
    exact ⟨i, line, hline, ⟨hflag, hgoes⟩, hlacks, rfl⟩
  · rintro ⟨i, line, hline, ⟨hflag, hgoes⟩, hlacks, rfl⟩
    exact ⟨line, false, i, ⟨hline, hflag⟩, ⟨⟨hlacks, rfl⟩, hgoes⟩, rfl⟩

theorem replaces_iff (hr : r.IsPlain) :
    r.rule.Replaces lines i new ↔ ∃ line, lines[i]? = some line ∧ r.StandsAlone lines i ∧
      r.lacks line = true ∧ new = r.terminate line := by
  have hsound : r.rule.IsSound := Terminator.isSound (by rw [hr.terminator]; decide)
  refine (Rule.replaces_ofFindings_iff hsound).trans ?_
  constructor
  · rintro ⟨_, hfound, f, hf, rfl, hnew⟩
    obtain rfl := Except.ok.inj hfound
    obtain ⟨i, line, hline, halone, hlacks, rfl⟩ := mem_check_iff.mp hf
    exact ⟨line, hline, halone, hlacks, (Option.some.inj hnew).symm⟩
  · rintro ⟨line, hline, halone, hlacks, rfl⟩
    exact ⟨_, rfl, _, mem_check_iff.mpr ⟨i, line, hline, halone, hlacks, rfl⟩, rfl, rfl⟩

theorem standsAlone_set (r : Terminator) (lines : List Text) (i : Nat) (new : Text) :
    r.StandsAlone (lines.set i new) i ↔ r.StandsAlone lines i := by
  have hbelow : goesOn (lines.set i new) i = goesOn lines i := by
    have hline (k : Nat) (hk : k ∈ LineScan.nextCode? lines (i + 1)) :
        (lines.set i new)[k]? = lines[k]? := by
      obtain ⟨offset, -, rfl⟩ := Option.map_eq_some_iff.mp hk
      exact List.getElem?_set_ne (by omega)
    have hnext : LineScan.nextCode? (lines.set i new) (i + 1) =
        LineScan.nextCode? lines (i + 1) := by
      rw [LineScan.nextCode?, LineScan.nextCode?, List.drop_set_of_lt (Nat.lt_succ_self i)]
    rw [goesOn, goesOn, hnext, Option.bind_congr hline]
  rw [StandsAlone, StandsAlone, LineScan.getElem?_continued_set, hbelow]

end Lines

section Fixed

variable (hr : r.IsPlain)
include hr

theorem passesOver_trailingBlanks (t : Text) : ∀ c ∈ t.trailingBlanks, r.style.PassesOver c :=
  hr.ordinary.passesOver_of_allBlank (Text.allBlank_trailingBlanks t)

theorem cutsOff_body (line : Text) : r.style.cutsOff (r.body line) = r.style.cutsOff line := by
  rw [← LiteralStyle.cutsOff_code hr.ordinary line, body]
  conv_rhs => rw [← Text.trimRight_append_trailingBlanks (r.style.splitComment line).1]
  exact (LiteralStyle.cutsOff_append_trail hr.ordinary (passesOver_trailingBlanks hr _) _).symm

section Closed

variable (hclosed : r.style.cutsOff line = false)
include hclosed

theorem isWhole_body : r.style.IsWhole (r.body line) := by
  refine ⟨?_, by rw [cutsOff_body hr, hclosed]⟩
  apply LiteralStyle.splitComment_snd_of_append_trail
    (passesOver_trailingBlanks hr (r.style.splitComment line).1)
  rw [body, Text.trimRight_append_trailingBlanks, LiteralStyle.splitComment_code]

theorem splitComment_terminate :
    r.style.splitComment (r.terminate line) =
      (r.body line ++ ';' :: (r.style.splitComment line).1.trailingBlanks,
        (r.style.splitComment line).2) := by
  have hbehind : r.style.splitComment (';' :: r.behind line) =
      (';' :: (r.style.splitComment line).1.trailingBlanks, (r.style.splitComment line).2) := by
    have htrail := List.forall_mem_cons.mpr
      ⟨hr.passed, passesOver_trailingBlanks hr (r.style.splitComment line).1⟩
    rw [behind, ← List.cons_append, LiteralStyle.splitComment_trail_append hr.ordinary htrail,
      LiteralStyle.splitComment_comment, List.append_nil]
  rw [terminate_eq hr, (isWhole_body hr hclosed).splitComment_append_cons hr.ordinary hr.passed,
    hbehind]

theorem code_terminate :
    r.code (r.terminate line) = (r.style.maskLiterals (r.body line)).trimLeft ++ [';'] := by
  have htrail := List.forall_mem_cons.mpr
    ⟨hr.passed, passesOver_trailingBlanks hr (r.style.splitComment line).1⟩
  have hblank := Text.allBlank_trailingBlanks (r.style.splitComment line).1
  have hend (front : Text) : (front ++ [';']).trimRight = front ++ [';'] :=
    Text.trimRight_eq_self fun c hc => by
      rw [List.getLast?_concat, Option.mem_some_iff] at hc
      exact hc ▸ by decide
  have hmask : r.style.codeMask (r.terminate line) =
      r.style.maskLiterals (r.body line) ++ [';'] := by
    rw [LiteralStyle.codeMask, splitComment_terminate hr hclosed,
      (isWhole_body hr hclosed).maskLiterals_append_cons hr.ordinary hr.passed,
      LiteralStyle.maskLiterals_of_passesOver hr.ordinary htrail, ← List.singleton_append,
      ← List.append_assoc, Text.trimRight_append_of_allBlank hblank, hend]
  rw [code, hmask, Text.trim, Text.trimLeft_append_cons (by decide), hend]

theorem lacks_terminate_of_closed : r.lacks (r.terminate line) = false := by
  have hends : r.terminator.isSuffixOf (r.code (r.terminate line)) = true := by
    rw [code_terminate hr hclosed, hr.terminator, List.isSuffixOf_iff_suffix]
    exact List.suffix_append _ _
  have hneeds : r.needsTerminator (r.code (r.terminate line)) = false := by
    rw [needsTerminator, if_pos hends]
  rw [lacks, hneeds, Bool.and_false]

theorem isInCode_terminate :
    r.style.IsInCode (r.terminate line) (r.body line).length where
  lt := by
    rw [splitComment_terminate hr hclosed]
    simp
  outside := by
    rw [terminate_eq hr]
    exact (isWhole_body hr hclosed).outside_append_cons hr.ordinary hr.passed _

omit hr hclosed in
theorem isBlank_of_mem_getLast?_maskLiterals {c : Char}
    (hc : c ∈ (r.style.maskLiterals (r.body line)).getLast?) : isBlank c = false := by
  have hlength : (r.style.maskLiterals (r.body line)).length = (r.body line).length :=
    List.length_mapIdx
  rw [List.getLast?_eq_getElem?, hlength] at hc
  cases hlast : (r.body line)[(r.body line).length - 1]? with
  | none =>
      rw [LiteralStyle.getElem?_maskLiterals, hlast] at hc
      cases hc
  | some d =>
      rcases LiteralStyle.eq_or_isInside hlast hc with rfl | ⟨rfl, -⟩
      · rw [← List.getLast?_eq_getElem?] at hlast
        exact Text.isBlank_of_mem_getLast?_trimRight hlast
      · decide

theorem codeMask_eq : r.style.codeMask line = r.style.maskLiterals (r.body line) := by
  have hblank := Text.allBlank_trailingBlanks (r.style.splitComment line).1
  have htrail := passesOver_trailingBlanks hr (r.style.splitComment line).1
  have hmask : r.style.maskLiterals (r.style.splitComment line).1 =
      r.style.maskLiterals (r.body line) ++ (r.style.splitComment line).1.trailingBlanks := by
    conv_lhs => rw [← Text.trimRight_append_trailingBlanks (r.style.splitComment line).1]
    cases hblanks : (r.style.splitComment line).1.trailingBlanks with
    | nil => rw [List.append_nil, List.append_nil, body]
    | cons x more =>
        rw [hblanks] at htrail
        have hx := htrail x List.mem_cons_self
        have hparts := (isWhole_body hr hclosed).maskLiterals_append_cons hr.ordinary hx more
        rw [LiteralStyle.maskLiterals_of_passesOver hr.ordinary htrail] at hparts
        exact hparts
  rw [LiteralStyle.codeMask, hmask, Text.trimRight_append_of_allBlank hblank]
  exact Text.trimRight_eq_self fun _ hc => isBlank_of_mem_getLast?_maskLiterals hc

theorem standsInCode_terminate_iff :
    r.style.StandsInCode (r.terminate line) (r.body line).length ↔
      r.style.leavesBlockOpen (r.style.codeMask line) = false := by
  have hlength : (r.style.maskLiterals (r.body line)).length = (r.body line).length :=
    List.length_mapIdx
  have hbefore : (r.style.maskLiterals (r.terminate line)).take (r.body line).length =
      r.style.codeMask line := by
    rw [terminate_eq hr, (isWhole_body hr hclosed).maskLiterals_append_cons hr.ordinary hr.passed,
      ← hlength, List.take_left, codeMask_eq hr hclosed]
  rw [← hbefore]
  exact ⟨fun h => h.outsideBlocks, fun h => ⟨isInCode_terminate hr hclosed, h⟩⟩

end Closed

section Open

variable (hopen : r.style.cutsOff line = true)
include hopen

theorem passesOver_behind : ∀ c ∈ r.behind line, r.style.PassesOver c := by
  rw [behind, LiteralStyle.splitComment_snd_of_cutsOff hr.ordinary hopen, List.append_nil]
  exact passesOver_trailingBlanks hr _

theorem cutsOff_terminate : r.style.cutsOff (r.terminate line) = true := by
  have htrail := List.forall_mem_cons.mpr ⟨hr.passed, passesOver_behind hr hopen⟩
  rw [terminate_eq hr, LiteralStyle.cutsOff_append_trail hr.ordinary htrail, cutsOff_body hr, hopen]

theorem not_isInCode_terminate :
    ¬r.style.IsInCode (r.terminate line) (r.body line).length := by
  intro h
  have hcut := cutsOff_terminate hr hopen
  obtain ⟨s, hs, hend⟩ := List.any_eq_true.mp hcut
  have hstop : s.stop = (r.terminate line).length := by simpa using (Bool.and_eq_true_iff.mp hend).1
  have hlength : (r.body line).length < s.stop := by
    rw [hstop, terminate_eq hr]
    simp
  refine h.outside s hs ⟨?_, hlength⟩
  -- the literal begins with a quote, and there is none behind the body
  obtain ⟨quote, hquote, hfirst⟩ := (LiteralStyle.isQuoted_of_mem_literals hs).first
  by_contra hlt
  rw [terminate_eq hr, List.getElem?_append_right (by omega)] at hfirst
  have htrail := List.forall_mem_cons.mpr ⟨hr.passed, passesOver_behind hr hopen⟩
  exact (htrail quote (List.mem_of_getElem? hfirst)).1 hquote

/-- With the terminator inside the literal, the line shows the same code as before. -/
theorem sameCode_terminate : r.style.SameCode (r.code (r.terminate line)) (r.code line) := by
  have htrail := passesOver_behind hr hopen
  have hsame : r.style.SameCode (r.style.codeMask (r.body line ++ ';' :: r.behind line))
      (r.style.codeMask (r.body line ++ r.behind line)) := by
    refine LiteralStyle.sameCode_codeMask_append hr.ordinary
      (List.forall_mem_cons.mpr ⟨hr.passed, htrail⟩) htrail fun hclosed => ?_
    rw [cutsOff_body hr, hopen] at hclosed
    cases hclosed
  rw [← terminate_eq hr, body_append_behind] at hsame
  exact hsame.trim hr.ordinary

theorem isCommentLine_terminate (h : r.style.isCommentLine line.trim = false) :
    r.style.isCommentLine (r.terminate line).trim = false := by
  have hcode : (r.style.splitComment line).1 = line := by
    have hwhole := r.style.splitComment_append line
    rwa [LiteralStyle.splitComment_snd_of_cutsOff hr.ordinary hopen, List.append_nil] at hwhole
  obtain ⟨rest, htrim⟩ := Text.exists_trim_append_cons (q := ';') (by decide) (r.body line)
    (r.behind line)
  rw [body, Text.trimLeft_trimRight, hcode] at htrim
  have hmark : (r.style.lineComment.any fun mark => mark.isPrefixOf (line.trim ++ ';' :: rest)) =
      r.style.lineComment.any fun mark => mark.isPrefixOf line.trim :=
    LiteralStyle.commentStarts_append_cons hr.passed line.trim rest
  have hstar : (line.trim ++ ';' :: rest == ['*']) = false := by
    cases line.trim with
    | nil => rfl
    | cons c others => simp
  rw [terminate_eq hr, body, hcode, htrim]
  rw [LiteralStyle.isCommentLine] at h ⊢
  rw [hmark, hstar, Text.startsWithAny_append_cons (by decide)]
  simp only [Bool.or_eq_false_iff, Bool.and_eq_false_imp] at h ⊢
  exact ⟨h.1, fun hblocks => ⟨(h.2 hblocks).1, trivial⟩⟩

theorem lacks_terminate_of_open (h : r.lacks line = true) : r.lacks (r.terminate line) = true := by
  simp only [lacks, Bool.and_eq_true, Bool.not_eq_true'] at h ⊢
  obtain ⟨⟨⟨-, hcomment⟩, hcode⟩, hneeds⟩ := h
  have hsame := sameCode_terminate hr hopen
  refine ⟨⟨⟨?_, isCommentLine_terminate hr hopen hcomment⟩, ?_⟩, ?_⟩
  · obtain ⟨rest, htrim⟩ := Text.exists_trim_append_cons (q := ';') (by decide) (r.body line)
      (r.behind line)
    rw [terminate_eq hr, htrim]
    simp
  · rw [hsame.isEmpty_eq, hcode]
  · rw [needsTerminator_congr hr hsame, hneeds]

theorem stays_of_cutsOff (h : r.lacks line = true) (n : Nat) :
    r.style.cutsOff (r.terminate^[n] line) = true ∧ r.lacks (r.terminate^[n] line) = true := by
  induction n with
  | zero => exact ⟨hopen, h⟩
  | succ n ih =>
      rw [Function.iterate_succ_apply']
      exact ⟨cutsOff_terminate hr ih.1, lacks_terminate_of_open hr ih.1 ih.2⟩

end Open

end Fixed

def builtin : List Terminator :=
  [{ style := CSharp.profile.style, directives := ["using ".toList] },
   { style := Java.profile.style, directives := ["import ".toList, "package ".toList]
     exemptStarts := [['@']] },
   { style := Cpp.profile.style, directives := ["using ".toList, "typedef ".toList] },
   { style := JavaScript.profile.style, directives := ["import ".toList]
     exemptStarts := [['#', '!'], ['@']] }]

theorem perm_registered :
    (builtin.map fun r => (r.style, r.rule)).Perm (Registry.registered Spec.missingTerminator.code) :=
  .of_eq rfl

theorem isPlain_of_mem_builtin : ∀ r ∈ builtin, r.IsPlain := by
  simp only [builtin, List.forall_mem_cons]
  refine ⟨?_, ?_, ?_, ?_, List.forall_mem_nil _⟩
  all_goals exact isPlain_of_checksQuotes rfl (by decide) (by decide) (by decide)

/-- A terminator that is put into a line stands in its code, unless the line is cut off in a literal
or leaves a block comment open. The line is reported again only if it is cut off, and then again for
each terminator that it is given. -/
theorem replaces_again_iff_cutsOff (hr : r ∈ builtin) (h : r.rule.Replaces lines i new) :
    ∃ line p, lines[i]? = some line ∧ new = line.take p ++ ';' :: line.drop p ∧
      (r.style.StandsInCode new p ↔ r.style.cutsOff line = false ∧
        r.style.leavesBlockOpen (r.style.codeMask line) = false) ∧
      ((∃ again, r.rule.Replaces (lines.set i new) i again) ↔ r.style.cutsOff line = true) ∧
      (r.style.cutsOff line = true → ∀ n,
        r.rule.Replaces (lines.set i (r.terminate^[n] line)) i (r.terminate^[n + 1] line)) := by
  have hplain := isPlain_of_mem_builtin r hr
  obtain ⟨line, hline, halone, hlacks, rfl⟩ := (replaces_iff hplain).mp h
  have hlt := (List.getElem?_eq_some_iff.mp hline).1
  -- a line in its place is reported again if it still lacks its terminator
  have hplace (t : Text) :
      (∃ again, r.rule.Replaces (lines.set i t) i again) ↔ r.lacks t = true := by
    simp only [replaces_iff hplain, List.getElem?_set_self hlt, standsAlone_set, Option.some.injEq]
    exact ⟨fun ⟨_, _, rfl, _, ht, _⟩ => ht, fun ht => ⟨_, t, rfl, halone, ht, rfl⟩⟩
  refine ⟨line, (r.body line).length, hline, ?_, ?_, ?_, ?_⟩
  · rw [take_body, drop_body, terminate_eq hplain]
  · cases hcut : r.style.cutsOff line with
    | false => simp [standsInCode_terminate_iff hplain hcut]
    | true =>
        refine iff_of_false (fun hcode => ?_) fun hcode => Bool.noConfusion hcode.1
        exact not_isInCode_terminate hplain hcut hcode.toIsInCode
  · rw [hplace]
    cases hcut : r.style.cutsOff line with
    | false => rw [lacks_terminate_of_closed hplain hcut]
    | true => rw [lacks_terminate_of_open hplain hcut hlacks]
  · intro hcut n
    obtain ⟨hopen, hfails⟩ := stays_of_cutsOff hplain hcut hlacks n
    refine (replaces_iff hplain).mpr ⟨_, List.getElem?_set_self hlt,
      (standsAlone_set r lines i _).mpr halone, hfails, ?_⟩
    rw [Function.iterate_succ_apply']

def separatedDigits : Text := "int n = 1'000  ".toList

theorem replaces_again_iff_cutsOff_separatedDigits :
    let r : Terminator :=
      { style := Cpp.profile.style, directives := ["using ".toList, "typedef ".toList] }
    r ∈ builtin ∧ r.rule.Replaces [separatedDigits] 0 "int n = 1'000;  ".toList ∧
      ∃ line p, [separatedDigits][0]? = some line ∧
        "int n = 1'000;  ".toList = line.take p ++ ';' :: line.drop p ∧
        ¬r.style.StandsInCode "int n = 1'000;  ".toList p ∧
        (∃ again, r.rule.Replaces ["int n = 1'000;  ".toList] 0 again) ∧
        ∀ n, r.rule.Replaces [r.terminate^[n] line] 0 (r.terminate^[n + 1] line) := by
  intro r
  have hr : r ∈ builtin := by simp [builtin, r]
  have hplain := isPlain_of_mem_builtin r hr
  have hreport : r.rule.Replaces [separatedDigits] 0 "int n = 1'000;  ".toList :=
    (replaces_iff hplain).mpr ⟨separatedDigits, rfl, ⟨by decide +kernel, by decide +kernel⟩,
      by decide +kernel, by decide +kernel⟩
  have hcut : r.style.cutsOff separatedDigits = true := by decide +kernel
  obtain ⟨line, p, hline, hnew, hcode, hagain, hforever⟩ := replaces_again_iff_cutsOff hr hreport
  obtain rfl : separatedDigits = line := Option.some.inj hline
  refine ⟨hr, hreport, separatedDigits, p, hline, hnew, ?_, hagain.mpr hcut, hforever hcut⟩
  rw [hcode, hcut]
  exact fun hwhole => Bool.noConfusion hwhole.1

end Terminator

end LineLint
