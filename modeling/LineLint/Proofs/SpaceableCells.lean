import LineLint.Proofs.LineRewrites
import LineLint.Proofs.LiteralSpans
import LineLint.Proofs.MatchedText
import LineLint.Proofs.SpacedOperators

/-!
# The cells of a line can be rebuilt

What is protected starts with a quote or with the first angle bracket of a generic span, and ends
with a quote, a closing angle bracket or the line. If no token holds a quote, or an angle bracket
behind another character, then no token runs into a protected part.
-/

namespace LineLint

section Matches

variable {t : Text} {m : Match}

/-- The angle brackets of a generic span stand behind a name, and are closed. -/
theorem ProtectedSpan.exists_angles (h : m ∈ genericSpan.findAll t) :
    ∃ before taken after, t = before ++ taken ++ after ∧ m.start = before.length ∧
      m.stop = before.length + taken.length ∧ taken.head? ≠ some '<' ∧ '<' ∈ taken ∧
      taken.getLast? = some '>' := by
  obtain ⟨before, taken, after, d, rfl, hstart, hstop, -, hpasses, hd⟩ :=
    Pattern.exists_results_of_mem_findAll h
  obtain ⟨behindName, hname, hangles⟩ := Pattern.mem_results_append_iff.mp hd
  obtain ⟨beforeBlank, hname, hblank⟩ := Pattern.mem_results_append_iff.mp hname
  obtain ⟨behindFirst, hfirst, hmore⟩ := Pattern.mem_results_append_iff.mp hname
  obtain ⟨atFirst, hedge, hfirst⟩ := Pattern.mem_results_append_iff.mp hfirst
  obtain rfl := Pattern.eq_of_mem_edge hedge
  obtain ⟨behindBody, hbody, hclose⟩ := Pattern.mem_results_append_iff.mp hangles
  obtain ⟨behindOpening, hopening, hbody⟩ := Pattern.mem_results_append_iff.mp hbody
  obtain ⟨first, hletter, hfirst⟩ := Pattern.passes_of_mem_one hfirst
  obtain ⟨more, hmore⟩ := Pattern.passes_of_mem_results hmore
  obtain ⟨blank, hblank⟩ := Pattern.passes_of_mem_results hblank
  obtain ⟨opening, hless, hopening⟩ := Pattern.passes_of_mem_one hopening
  obtain ⟨body, hbody⟩ := Pattern.passes_of_mem_results hbody
  obtain ⟨closing, hgreater, hclose⟩ := Pattern.passes_of_mem_one hclose
  have htaken := hpasses.eq
    (hfirst.trans (hmore.trans (hblank.trans (hopening.trans (hbody.trans hclose)))))
  rw [eq_of_beq hless, eq_of_beq hgreater] at htaken
  refine ⟨before, taken, after, rfl, hstart, hstop, ?_, ?_, ?_⟩
  · rw [htaken]
    rintro ⟨⟩
    cases hletter
  · rw [htaken]
    simp
  · simp only [htaken, ← List.append_assoc, List.getLast?_concat]

/-- A generic span is a name, which ends with no angle bracket, and the part in angle brackets. -/
theorem ProtectedSpan.exists_anglePart (h : m ∈ genericSpan.findAll t) :
    ∃ before name angles after, t = before ++ name ++ angles ++ after ∧ name ≠ [] ∧
      '<' ∉ name ∧ angles.head? = some '<' ∧ angles.getLast? = some '>' ∧
      anglePart t m = ⟨(before ++ name).length, (before ++ name ++ angles).length⟩ := by
  obtain ⟨before, taken, after, rfl, hstart, hstop, hhead, hless, hlast⟩ := exists_angles h
  have hslice : Text.slice (before ++ taken ++ after) m.start m.stop = taken := by
    rw [Text.slice, hstart, hstop, ← List.length_append, List.take_left, List.drop_left]
  have hsplit : taken.takeWhile (· != '<') ++ taken.dropWhile (· != '<') = taken :=
    List.takeWhile_append_dropWhile
  have hangles : taken.dropWhile (· != '<') ≠ [] := fun hnil => by
    simpa using List.dropWhile_eq_nil_iff.mp hnil '<' hless
  have hopening : (taken.dropWhile (· != '<')).head? = some '<' := by
    obtain ⟨c, rest, hcons⟩ := List.exists_cons_of_ne_nil hangles
    have hnot := List.head?_dropWhile_not (· != '<') taken
    rw [hcons, List.head?_cons] at hnot ⊢
    simpa using hnot
  refine ⟨before, taken.takeWhile (· != '<'), taken.dropWhile (· != '<'), after, ?_, ?_, ?_,
    hopening, ?_, ?_⟩
  · rw [List.append_assoc before (taken.takeWhile _), hsplit]
  · intro hnil
    rw [hnil, List.nil_append] at hsplit
    exact hhead (hsplit ▸ hopening)
  · intro hmem
    simpa using List.mem_takeWhile_imp hmem
  · rw [← hlast, ← List.getLast?_append_of_ne_nil _ hangles, hsplit]
  · rw [anglePart, hslice, List.append_assoc before (taken.takeWhile _), hsplit,
      List.length_append, List.length_append, hstart, hstop]

theorem OperatorSpacing.exists_keyword {keywords : List Text}
    (h : m ∈ (keywordCall keywords).findAll t) :
    ∃ before after, ∃ keyword ∈ keywords, t = before ++ (keyword ++ ['(']) ++ after ∧
      m.stop = before.length + keyword.length + 1 := by
  obtain ⟨before, taken, after, d, rfl, -, hstop, -, hpasses, hd⟩ :=
    Pattern.exists_results_of_mem_findAll h
  obtain ⟨behindKeyword, hkeyword, hopening⟩ := Pattern.mem_results_append_iff.mp hd
  obtain ⟨atKeyword, hedge, hkeyword⟩ := Pattern.mem_results_append_iff.mp hkeyword
  obtain rfl := Pattern.eq_of_mem_edge hedge
  obtain ⟨inner, hinner, rfl⟩ := List.mem_map.mp hkeyword
  obtain ⟨pattern, hpattern, hinner⟩ := Pattern.mem_results_choice hinner
  obtain ⟨keyword, hmem, rfl⟩ := List.mem_map.mp hpattern
  obtain ⟨opening, hparen, hopening⟩ := Pattern.passes_of_mem_one hopening
  have htaken := hpasses.eq
    (((Pattern.passes_of_mem_textPattern hinner).record "keyword" _).trans hopening)
  rw [eq_of_beq hparen] at htaken
  refine ⟨before, after, keyword, hmem, by rw [htaken], ?_⟩
  rw [hstop, htaken, List.length_append, List.length_singleton, Nat.add_assoc]

end Matches

open Cell (codes anyShows)

section Cells

variable {style : LiteralStyle} {generics : Bool} {keywordAt : Nat → Option Text} {code : Text}
  {i : Nat} {cell : Cell}

structure Cell.IsAt (style : LiteralStyle) (generics : Bool) (keywordAt : Nat → Option Text)
    (code : Text) (i : Nat) (cell : Cell) : Prop where
  code_eq : code[i]? = some cell.code
  masked_eq : (style.maskLiterals code)[i]? = some cell.masked
  protected_eq : cell.isProtected =
    ProtectedSpan.isProtected (ProtectedSpan.spans style generics code) i
  keyword_eq : cell.keyword = if cell.isProtected then none else keywordAt i

theorem Cell.isAt (h : (ofCode style generics keywordAt code)[i]? = some cell) :
    IsAt style generics keywordAt code i cell := by
  rw [ofCode, List.getElem?_mapIdx] at h
  obtain ⟨⟨c, m⟩, hpair, rfl⟩ := Option.map_eq_some_iff.mp h
  obtain ⟨hc, hm⟩ := List.getElem?_zip_eq_some.mp hpair
  exact ⟨hc, hm, rfl, rfl⟩

theorem Cell.length_ofCode : (ofCode style generics keywordAt code).length = code.length := by
  simp [ofCode]

theorem Cell.codes_ofCode : codes (ofCode style generics keywordAt code) = code := by
  refine List.ext_getElem (by rw [codes, List.length_map, length_ofCode]) fun i _ hi => ?_
  simp [codes, ofCode]

theorem Cell.map_masked_ofCode :
    (ofCode style generics keywordAt code).map (·.masked) = style.maskLiterals code := by
  have hlength := style.length_maskLiterals code
  refine List.ext_getElem (by rw [List.length_map, length_ofCode, hlength]) fun i _ hi => ?_
  simp [ofCode]

theorem Cell.isAt_of_split {before after : List Cell}
    (hcells : ofCode style generics keywordAt code = before ++ cell :: after) :
    IsAt style generics keywordAt code before.length cell := by
  refine isAt ?_
  rw [hcells]
  simp

theorem Cell.IsAt.isProtected_iff (h : IsAt style generics keywordAt code i cell) :
    cell.isProtected = true ↔
      ∃ s ∈ ProtectedSpan.spans style generics code, s.start ≤ i ∧ i < s.stop := by
  rw [h.protected_eq, ProtectedSpan.isProtected, List.any_eq_true]
  simp only [Span.holds, Bool.and_eq_true, decide_eq_true_eq]

theorem Cell.IsAt.masked_eq_code (h : IsAt style generics keywordAt code i cell)
    (hnot : cell.isProtected = false) : cell.masked = cell.code := by
  rcases LiteralStyle.eq_or_isInside h.code_eq h.masked_eq with hsame | ⟨-, s, hs, hstart, hstop⟩
  · exact hsame
  · have hprotected : cell.isProtected = true :=
      h.isProtected_iff.mpr ⟨s, List.mem_append_left _ hs, by omega, hstop⟩
    rw [hprotected] at hnot
    cases hnot

variable {next : Cell}

theorem Cell.IsAt.masked_eq_code_of_previous (hcell : IsAt style generics keywordAt code i cell)
    (hnext : IsAt style generics keywordAt code (i + 1) next) (hnot : cell.isProtected = false) :
    next.masked = next.code := by
  rcases LiteralStyle.eq_or_isInside hnext.code_eq hnext.masked_eq with
    hsame | ⟨-, s, hs, hstart, hstop⟩
  · exact hsame
  · rw [hcell.isProtected_iff.mpr ⟨s, List.mem_append_left _ hs, by omega, by omega⟩] at hnot
    cases hnot

theorem Cell.IsAt.masked_eq_code_of_next (hcell : IsAt style generics keywordAt code i cell)
    (hnext : IsAt style generics keywordAt code (i + 1) next) (hnot : next.isProtected = false) :
    cell.masked = cell.code := by
  have hlt : i + 1 < code.length := (List.getElem?_eq_some_iff.mp hnext.code_eq).1
  have hmask := hcell.masked_eq
  rw [LiteralStyle.getElem?_maskLiterals, hcell.code_eq, Option.map_some, Option.some.injEq] at hmask
  split_ifs at hmask with hhides
  · obtain ⟨s, hs, hhides⟩ := List.any_eq_true.mp hhides
    simp only [LiteralStyle.hides, Bool.and_eq_true, Bool.or_eq_true, decide_eq_true_eq,
      beq_iff_eq] at hhides
    rw [hnext.isProtected_iff.mpr ⟨s, List.mem_append_left _ hs, by omega, by omega⟩] at hnot
    cases hnot
  · exact hmask.symm

end Cells

section Bounds

/-- How a protected part starts and ends: it starts with no blank, and no token runs into it; and
if the line goes on behind it, it ends with no blank. -/
structure Span.IsBounded (tokens : List Text) (code masked : Text) (s : Span) : Prop where
  of_start : ∀ i c d, s.start = i + 1 → s.start < s.stop → masked[i]? = some c →
    masked[i + 1]? = some d →
    isSpaceOrTab d = false ∧ ∀ token ∈ tokens, ¬[c, d] <:+: token
  of_last : ∀ i c, s.start ≤ i → s.stop = i + 1 → i + 1 < code.length → code[i]? = some c →
    isSpaceOrTab c = false

namespace OperatorSpacing

/-- What the tables of a language do not hold: blanks, quotes, and angle brackets that other
characters of a token stand before. -/
structure IsPlain (r : OperatorSpacing) : Prop where
  quotes : ∀ quote ∈ r.style.quotes, isBlank quote = false
  tokens : ∀ token ∈ r.table.binary ++ r.table.verbatim,
    token ≠ [] ∧ ∀ c ∈ token, isBlank c = false ∧ c ≠ maskChar ∧ c ∉ r.style.quotes
  angles : ∀ token ∈ r.table.binary ++ r.table.verbatim,
    ∀ pair ∈ token.zip token.tail, pair.2 = '<' → pair.1 = '<'
  keywords : ∀ keyword ∈ r.table.controlKeywords,
    keyword ≠ [] ∧ ∀ c ∈ keyword, isBlank c = false

def hasPlainTables (r : OperatorSpacing) : Bool :=
  let tokens := r.table.binary ++ r.table.verbatim
  r.style.quotes.all (fun quote => !isBlank quote) &&
    tokens.all (fun token => !token.isEmpty &&
      token.all fun c => !isBlank c && c != maskChar && !r.style.quotes.contains c) &&
    tokens.all (fun token => (token.zip token.tail).all fun (c, d) => d != '<' || c == '<') &&
    r.table.controlKeywords.all fun keyword =>
      !keyword.isEmpty && keyword.all fun c => !isBlank c

theorem isPlain_of_hasPlainTables {r : OperatorSpacing} (h : r.hasPlainTables = true) :
    r.IsPlain := by
  simp only [hasPlainTables, Bool.and_eq_true, List.all_eq_true, Bool.not_eq_true',
    List.isEmpty_eq_false_iff, bne_iff_ne, Bool.or_eq_true, beq_iff_eq] at h
  obtain ⟨⟨⟨hquotes, htokens⟩, hangles⟩, hkeywords⟩ := h
  refine ⟨hquotes, fun token htoken => ?_, fun token htoken pair hpair hless => ?_, hkeywords⟩
  · obtain ⟨hne, hchars⟩ := htokens token htoken
    refine ⟨hne, fun c hc => ?_⟩
    obtain ⟨⟨hblank, hmask⟩, hquote⟩ := hchars c hc
    exact ⟨hblank, hmask, by simpa using hquote⟩
  · exact (hangles token htoken pair hpair).resolve_left (not_not_intro hless)

theorem mem_byLength {t : OperatorTable} {token : Text} :
    token ∈ t.byLength ↔ token ∈ t.binary ++ t.verbatim :=
  List.mem_mergeSort

variable {r : OperatorSpacing} {code : Text} {s : Span}

theorem IsPlain.arePlain (h : r.IsPlain) : ArePlain r.table.byLength := by
  intro token htoken
  obtain ⟨hne, hchars⟩ := h.tokens token (mem_byLength.mp htoken)
  exact ⟨hne, fun c hc => (hchars c hc).1⟩

theorem isSpaceOrTab_of_not_isBlank {c : Char} (h : isBlank c = false) :
    isSpaceOrTab c = false := by
  by_contra hspace
  rw [Text.isBlank_of_isSpaceOrTab (by simpa using hspace)] at h
  cases h

theorem mem_zip_tail_of_neighbours {α : Type} {xs : List α} {x y : α} (h : [x, y] <:+: xs) :
    (x, y) ∈ xs.zip xs.tail := by
  obtain ⟨front, back, rfl⟩ := h
  refine List.mem_of_getElem? (i := front.length) (List.getElem?_zip_eq_some.mpr ⟨?_, ?_⟩)
  · simp
  · rw [List.getElem?_tail]
    simp

theorem isBounded_of_mem_literals (h : r.IsPlain) (hs : s ∈ r.style.literals code) :
    s.IsBounded r.table.byLength code (r.style.maskLiterals code) := by
  have hquoted := LiteralStyle.isQuoted_of_mem_literals hs
  refine ⟨fun i c d hstart _ _ hd => ?_, fun i c _ hstop hlt hc => ?_⟩
  · obtain ⟨quote, hquote, hfirst⟩ := hquoted.first
    rw [hstart] at hfirst
    have hcases : d = quote ∨ d = maskChar :=
      (LiteralStyle.eq_or_isInside hfirst hd).imp_right And.left
    refine ⟨?_, fun token htoken hwithin => ?_⟩
    · rcases hcases with rfl | rfl
      · exact isSpaceOrTab_of_not_isBlank (h.quotes d hquote)
      · rfl
    · obtain ⟨-, hmask, hnot⟩ :=
        (h.tokens token (mem_byLength.mp htoken)).2 d (hwithin.subset (by simp))
      rcases hcases with rfl | rfl
      · exact hnot hquote
      · exact hmask rfl
  · obtain ⟨quote, hquote, hlast⟩ := hquoted.last (by omega)
    rw [hstop, Nat.add_sub_cancel, hc, Option.some.injEq] at hlast
    rw [hlast]
    exact isSpaceOrTab_of_not_isBlank (h.quotes quote hquote)

theorem isBounded_anglePart (h : r.IsPlain) {m : Match}
    (hm : m ∈ ProtectedSpan.genericSpan.findAll (r.style.maskLiterals code)) :
    (ProtectedSpan.anglePart (r.style.maskLiterals code) m).IsBounded r.table.byLength code
      (r.style.maskLiterals code) := by
  obtain ⟨before, name, angles, after, hmasked, hname, hless, hhead, hlast, hpart⟩ :=
    ProtectedSpan.exists_anglePart hm
  rw [hpart]
  refine ⟨fun i c d hstart hlt hc hd => ?_, fun i c hstart hstop hlt hc => ?_⟩
  · obtain ⟨front, last, rfl⟩ := (List.eq_nil_or_concat name).resolve_left hname
    obtain ⟨rest, rfl⟩ := List.head?_eq_some_iff.mp hhead
    have hi : i = (before ++ front).length := by
      have hlength : (before ++ front.concat last).length = i + 1 := hstart
      simp only [List.length_append, List.length_concat] at hlength ⊢
      omega
    have hshape : r.style.maskLiterals code =
        before ++ front ++ last :: '<' :: (rest ++ after) := by
      rw [hmasked]
      simp
    rw [hshape, List.getElem?_append_right (by omega), hi, Nat.sub_self] at hc
    rw [hshape, List.getElem?_append_right (by omega), hi, Nat.add_sub_cancel_left] at hd
    obtain rfl : last = c := Option.some.inj hc
    obtain rfl : '<' = d := Option.some.inj hd
    refine ⟨rfl, fun token htoken hwithin => hless ?_⟩
    have hangle : last = '<' :=
      h.angles token (mem_byLength.mp htoken) (last, '<') (mem_zip_tail_of_neighbours hwithin) rfl
    rw [hangle]
    simp
  · obtain ⟨rest, rfl⟩ := List.getLast?_eq_some_iff.mp hlast
    have hi : i = (before ++ name ++ rest).length := by
      have hlength : (before ++ name ++ (rest ++ ['>'])).length = i + 1 := hstop
      simp only [List.length_append, List.length_singleton] at hlength ⊢
      omega
    have hmask : (r.style.maskLiterals code)[i]? = some '>' := by
      rw [hmasked, ← List.append_assoc _ rest, List.append_assoc _ ['>'],
        List.getElem?_append_right (by omega), hi, Nat.sub_self]
      rfl
    rcases LiteralStyle.eq_or_isInside hc hmask with hsame | ⟨hsame, -⟩
    · rw [← hsame]
      rfl
    · cases hsame

theorem isBounded_of_mem_spans (h : r.IsPlain)
    (hs : s ∈ ProtectedSpan.spans r.style r.generics code) :
    s.IsBounded r.table.byLength code (r.style.maskLiterals code) := by
  rcases List.mem_append.mp hs with hs | hs
  · exact isBounded_of_mem_literals h hs
  · split_ifs at hs
    · obtain ⟨m, hm, rfl⟩ := List.mem_map.mp hs
      exact isBounded_anglePart h hm
    · cases hs

end OperatorSpacing

end Bounds

namespace OperatorSpacing

section Spaceable

variable {r : OperatorSpacing} {keywordAt : Nat → Option Text} {code : Text} {i : Nat}
  {cells before after : List Cell} {cell : Cell}

theorem adjoins_ofCode (h : r.IsPlain) :
    (Cell.ofCode r.style r.generics keywordAt code).IsChain (Adjoins r.table.byLength) := by
  refine List.isChain_iff_getElem.mpr fun i hi => ?_
  have hc := Cell.isAt (List.getElem?_eq_getElem (Nat.lt_of_succ_lt hi))
  have hd := Cell.isAt (List.getElem?_eq_getElem hi)
  refine ⟨fun hprotected hblank => ?_, fun hnot hprotected => ?_⟩
  · obtain ⟨s, hs, hstart, hstop⟩ := hc.isProtected_iff.mp hprotected
    refine hd.isProtected_iff.mpr ⟨s, hs, by omega, ?_⟩
    by_contra hend
    have hlt : i + 1 < code.length := by rwa [Cell.length_ofCode] at hi
    rw [(isBounded_of_mem_spans h hs).of_last i _ hstart (by omega) hlt hc.code_eq] at hblank
    cases hblank
  · obtain ⟨s, hs, hstart, hstop⟩ := hd.isProtected_iff.mp hprotected
    have hfirst : s.start = i + 1 := by
      by_contra hearlier
      rw [hc.isProtected_iff.mpr ⟨s, hs, by omega, by omega⟩] at hnot
      cases hnot
    exact (isBounded_of_mem_spans h hs).of_start i _ _ hfirst (by omega) hc.masked_eq hd.masked_eq

/-- What shows on the masked line, or the quote that opens the literal around it, shows in the
line. -/
theorem exists_shown (h : r.IsPlain) {m : Char} (hm : (r.style.maskLiterals code)[i]? = some m)
    (hshows : isBlank m = false) :
    ∃ j ≤ i, ∃ c, code[j]? = some c ∧ isBlank c = false := by
  have hlt : i < code.length := by
    rw [← r.style.length_maskLiterals code]
    exact (List.getElem?_eq_some_iff.mp hm).1
  rcases LiteralStyle.eq_or_isInside (List.getElem?_eq_getElem hlt) hm with
    hsame | ⟨-, s, hs, hstart, -⟩
  · exact ⟨i, Nat.le_refl i, m, by rw [hsame, List.getElem?_eq_getElem hlt], hshows⟩
  · obtain ⟨quote, hquote, hfirst⟩ := (LiteralStyle.isQuoted_of_mem_literals hs).first
    exact ⟨s.start, by omega, quote, hfirst, h.quotes quote hquote⟩

theorem anyShows_of_getElem? (hcells : codes (before ++ after) = code) {c : Char}
    (hc : code[i]? = some c) (hi : i < before.length) (hshows : isBlank c = false) :
    anyShows before = true := by
  rw [← hcells, Cell.codes_append, List.getElem?_append_left (by rwa [codes, List.length_map]),
    codes, List.getElem?_map] at hc
  obtain ⟨d, hd, rfl⟩ := Option.map_eq_some_iff.mp hc
  exact List.any_eq_true.mpr ⟨d, List.mem_of_getElem? hd, by rw [hshows]; rfl⟩

def IsCall (masked : Text) (i : Nat) : Prop :=
  masked[i]? = some '(' ∧ ∃ j < i, ∃ c, masked[j]? = some c ∧ isBlank c = false

theorem isSpaceable_ofCode (h : r.IsPlain)
    (hcalls : ∀ i, (keywordAt i).isSome = true → IsCall (r.style.maskLiterals code) i) :
    IsSpaceable r.table.byLength (Cell.ofCode r.style r.generics keywordAt code) := by
  have hcodes : codes (Cell.ofCode r.style r.generics keywordAt code) = code := Cell.codes_ofCode
  refine ⟨fun c hc hnot => ?_, adjoins_ofCode h, fun before c after hcells hshows => ?_,
    fun before c after hcells hkeyword => ?_⟩
  · obtain ⟨i, hi⟩ := List.mem_iff_getElem?.mp hc
    exact (Cell.isAt hi).masked_eq_code hnot
  · have hat : Cell.IsAt r.style r.generics keywordAt code before.length c :=
      Cell.isAt (by rw [hcells]; simp)
    rw [hcells, ← List.singleton_append, ← List.append_assoc] at hcodes
    obtain ⟨j, hj, x, hx, hblank⟩ := exists_shown h hat.masked_eq hshows
    exact anyShows_of_getElem? hcodes hx (by simpa using Nat.lt_succ_of_le hj) hblank
  · have hat : Cell.IsAt r.style r.generics keywordAt code before.length c :=
      Cell.isAt (by rw [hcells]; simp)
    rw [hat.keyword_eq] at hkeyword
    split_ifs at hkeyword with hprotected
    · cases hkeyword
    · have hnot : c.isProtected = false := by simpa using hprotected
      obtain ⟨hopening, j, hj, x, hx, hblank⟩ := hcalls before.length hkeyword
      refine ⟨⟨hnot, ?_⟩, ?_⟩
      · rw [hat.masked_eq, Option.some.injEq] at hopening
        rw [← hat.masked_eq_code hnot, hopening]
        rfl
      · rw [hcells] at hcodes
        obtain ⟨k, hk, y, hy, hshows⟩ := exists_shown h hx hblank
        exact anyShows_of_getElem? hcodes hy (by omega) hshows

theorem isCall_of_lookup (h : r.IsPlain) {masked : Text}
    (hsome : ((((keywordCall r.table.controlKeywords).findAll masked).map
      fun m => (m.stop - 1, m.text "keyword")).lookup i).isSome = true) : IsCall masked i := by
  obtain ⟨text, htext⟩ := Option.isSome_iff_exists.mp hsome
  obtain ⟨front, back, hcalls, -⟩ := List.lookup_eq_some_iff.mp htext
  have hmem : (i, text) ∈ ((keywordCall r.table.controlKeywords).findAll masked).map
      fun m => (m.stop - 1, m.text "keyword") := by
    rw [hcalls]
    simp
  obtain ⟨m, hm, hpair⟩ := List.mem_map.mp hmem
  obtain ⟨before, after, keyword, hkeyword, rfl, hstop⟩ := exists_keyword hm
  obtain ⟨hne, hchars⟩ := h.keywords keyword hkeyword
  obtain ⟨first, rest, rfl⟩ := List.exists_cons_of_ne_nil hne
  have hi : i = before.length + (first :: rest).length := by
    rw [← (Prod.mk.inj hpair).1, hstop, Nat.add_sub_cancel]
  refine ⟨?_, before.length, by rw [hi, List.length_cons]; omega, first, ?_,
    hchars first List.mem_cons_self⟩
  · rw [hi, ← List.length_append, ← List.append_assoc, List.append_assoc _ ['(']]
    simp
  · simp

end Spaceable

end OperatorSpacing

end LineLint
