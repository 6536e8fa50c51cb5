import GrammarTables.Proofs.Grammar.Format
import GrammarTables.Token
import Mathlib.Data.List.DropRight
import Mathlib.Logic.Function.Iterate

/-!
# Proofs/Token — which texts give which tokens

The format of a token text is stated without the reader: `Token.IsLine` says what one line holds,
`TokenText` which tokens the lines of a text give.  Two steps.

* **Lines** (`Token.IsLine.ofLine?_eq`, `Token.isLine_ofLine?`).  Trimming keeps what stands between
  white space (`Text.trim_append`), so the kind ends where the first white space behind it is.
* **Texts** (`TokenStream.ofText_eq_ofList_iff`).  White space at the end of a line is trimmed away,
  so a return before the end of a line is one more blank and the lines are those between the `\n`s.

What a stream shows comes last: its tokens in order, and then the end mark.
-/

namespace GrammarTables

variable {cs pre post kind rest line before between lexeme after : List Char} {t : Token}
  {t? : Option Token} {tokens : List Token} {stream : TokenStream} {text : String} {n : Nat}

/-! ## The format -/

/-- No white space at either end. -/
structure Trimmed (cs : List Char) : Prop where
  head : ∀ c ∈ cs.head?, ¬ Text.isBlank c
  last : ∀ c ∈ cs.getLast?, ¬ Text.isBlank c

/-- White space within a line. -/
structure Gap (cs : List Char) : Prop where
  blank : Blank cs
  not_newline : '\n' ∉ cs

/-- A token that a line can hold. -/
structure Token.IsWritable (t : Token) : Prop where
  kind_ne_nil : t.kind.toList ≠ []
  kind_not_blank : ∀ c ∈ t.kind.toList, ¬ Text.isBlank c
  lexeme : ∀ lexeme ∈ t.lexeme, lexeme.toList ≠ [] ∧ '\n' ∉ lexeme.toList ∧ Trimmed lexeme.toList

/-- This can be decided by looking at both ends, and so can the other forms. -/
theorem trimmed_iff : Trimmed cs ↔
    cs.head?.all (!Text.isBlank ·) ∧ cs.getLast?.all (!Text.isBlank ·) := by
  rw [Option.all_eq_true, Option.all_eq_true]
  exact ⟨fun h => ⟨by simpa using h.head, by simpa using h.last⟩,
    fun h => ⟨by simpa using h.1, by simpa using h.2⟩⟩

theorem gap_iff : Gap cs ↔ cs.all Text.isBlank ∧ '\n' ∉ cs :=
  ⟨fun h => ⟨List.all_eq_true.mpr h.blank, h.not_newline⟩,
    fun h => ⟨List.all_eq_true.mp h.1, h.2⟩⟩

theorem Token.isWritable_iff : t.IsWritable ↔
    t.kind.toList ≠ [] ∧ t.kind.toList.all (!Text.isBlank ·) ∧
      ∀ lexeme ∈ t.lexeme, lexeme.toList ≠ [] ∧ '\n' ∉ lexeme.toList ∧ Trimmed lexeme.toList := by
  rw [List.all_eq_true]
  exact ⟨fun h => ⟨h.kind_ne_nil, by simpa using h.kind_not_blank, h.lexeme⟩,
    fun h => ⟨h.1, by simpa using h.2.1, h.2.2⟩⟩

instance : Decidable (Trimmed cs) :=
  decidable_of_iff' _ trimmed_iff

instance : Decidable (Gap cs) :=
  decidable_of_iff' _ gap_iff

instance : Decidable t.IsWritable :=
  decidable_of_iff' _ Token.isWritable_iff

theorem Token.isWritable_endMark : endMark.IsWritable := by
  decide

/-- What a line holds: nothing, a kind, or a kind and a lexeme behind it, with gaps around. -/
inductive Token.IsLine : Option Token → List Char → Prop
  | blank (gap : List Char) (hgap : Gap gap) : IsLine none gap
  | kind (before : List Char) (kind : String) (after : List Char) (hbefore : Gap before)
    (hafter : Gap after) : IsLine (some ⟨kind, none⟩) (before ++ kind.toList ++ after)
  | lexeme (before : List Char) (kind : String) (between : List Char) (lexeme : String)
    (after : List Char) (hbefore : Gap before) (hbetween : Gap between) (hne : between ≠ [])
    (hafter : Gap after) : IsLine (some ⟨kind, some lexeme⟩)
      (before ++ kind.toList ++ between ++ lexeme.toList ++ after)

/-- What ends a line before the next one. -/
def lineEnds : List (List Char) :=
  [['\n'], ['\r', '\n']]

/-- The tokens of a text: those of its lines, with a line end between two of these. -/
inductive TokenText : List Token → List Char → Prop
  | last {t? : Option Token} {line : List Char} (hline : Token.IsLine t? line) :
    TokenText t?.toList line
  | line {t? : Option Token} {tokens : List Token} {line rest : List Char} (ending : List Char)
    (hending : ending ∈ lineEnds) (hline : Token.IsLine t? line) (hrest : TokenText tokens rest) :
    TokenText (t?.toList ++ tokens) (line ++ ending ++ rest)

/-! ## Trimming -/

theorem Blank.append (hpre : Blank pre) (hpost : Blank post) : Blank (pre ++ post) :=
  List.forall_mem_append.mpr ⟨hpre, hpost⟩

theorem blank_return : Blank ['\r'] :=
  List.forall_mem_singleton.mpr (by decide)

namespace Text

/-- The recursion drops what a scan from the end would drop. -/
theorem trimEnd_eq_rdropWhile (cs : List Char) : trimEnd cs = cs.rdropWhile isBlank := by
  induction cs with
  | nil => rfl
  | cons c cs ih =>
    rw [trimEnd, ih, List.rdropWhile, List.rdropWhile, List.reverse_cons, List.dropWhile_append]
    cases hdrop : cs.reverse.dropWhile isBlank with
    | nil =>
      cases hc : isBlank c <;> simp [hc]
    | cons d ds =>
      obtain ⟨e, es, hreverse⟩ := List.exists_cons_of_ne_nil
        (mt List.reverse_eq_nil_iff.mp (List.cons_ne_nil d ds))
      rw [hreverse, List.isEmpty_cons, if_neg Bool.false_ne_true, List.reverse_append, hreverse]
      rfl

/-- Blanks at the end are dropped up to the last other character. -/
theorem trimEnd_append (hcs : ∀ c ∈ cs.getLast?, ¬ isBlank c) (hpost : Blank post) :
    trimEnd (cs ++ post) = cs := by
  rw [trimEnd_eq_rdropWhile, List.rdropWhile, List.reverse_append,
    List.dropWhile_append_of_pos fun c hc => hpost c (List.mem_reverse.mp hc),
    ← List.rdropWhile, List.rdropWhile_eq_self_iff]
  exact fun hne => hcs _ (List.getLast?_eq_some_getLast hne)

/-- **What stands between white space is kept.** -/
theorem trim_append (hcs : Trimmed cs) (hpre : Blank pre) (hpost : Blank post) :
    trim (pre ++ cs ++ post) = cs := by
  rw [trim, List.append_assoc, List.dropWhile_append_of_pos hpre]
  cases cs with
  | nil =>
    have hdrop : post.dropWhile isBlank = [] := List.dropWhile_eq_nil_iff.mpr hpost
    rw [List.nil_append, hdrop]
    rfl
  | cons c cs =>
    rw [List.cons_append, List.dropWhile_cons_of_neg (hcs.head c rfl), ← List.cons_append]
    exact trimEnd_append hcs.last hpost

theorem not_blank_getLast?_trimEnd (cs : List Char) :
    ∀ c ∈ (trimEnd cs).getLast?, ¬ isBlank c := by
  rw [trimEnd_eq_rdropWhile]
  intro c hc
  obtain ⟨hne, rfl⟩ := List.mem_getLast?_eq_getLast hc
  exact List.rdropWhile_last_not isBlank cs hne

/-- What trimming keeps begins and ends with something else than white space. -/
theorem trimmed_trim (cs : List Char) : Trimmed (trim cs) := by
  refine ⟨fun c hc => ?_, not_blank_getLast?_trimEnd _⟩
  have hhead := List.head?_dropWhile_not isBlank cs
  obtain ⟨post, hcut, -⟩ := exists_trimEnd (cs.dropWhile isBlank)
  rw [hcut, List.head?_append, ← trim, Option.mem_def.mp hc] at hhead
  exact Bool.eq_false_iff.mp hhead

/-- White space at the end is trimmed away. -/
theorem trim_append_blank (cs : List Char) (hpost : Blank post) :
    trim (cs ++ post) = trim cs := by
  obtain ⟨before, after, hcut, hbefore, hafter⟩ := exists_trim cs
  conv_lhs => rw [hcut, List.append_assoc]
  exact trim_append (trimmed_trim cs) hbefore (hafter.append hpost)

theorem trim_blank (hcs : Blank cs) : trim cs = [] :=
  trim_append_blank [] hcs

/-- Behind a word only the end is trimmed. -/
theorem trim_append_word (hpre : Blank pre) (hne : kind ≠ []) (hkind : ∀ c ∈ kind, ¬ isBlank c) :
    trim (pre ++ kind ++ rest) = kind ++ trimEnd rest := by
  obtain ⟨post, hcut, hpost⟩ := exists_trimEnd rest
  conv_lhs => rw [hcut, ← List.append_assoc, List.append_assoc pre]
  refine trim_append ⟨fun c hc => ?_, fun c hc => ?_⟩ hpre hpost
  · rw [List.head?_append_of_ne_nil kind hne] at hc
    exact hkind c (List.mem_of_mem_head? hc)
  · rw [List.getLast?_append, Option.mem_def, Option.or_eq_some_iff] at hc
    rcases hc with hc | ⟨-, hc⟩
    · exact not_blank_getLast?_trimEnd rest c hc
    · exact hkind c (List.mem_of_getLast? hc)

/-! ## Stretches and lines -/

/-- Where the first part of a text ends. -/
theorem takeWhile_append_of_head? {p : Char → Bool} (hpre : ∀ c ∈ pre, p c)
    (hpost : ∀ c ∈ post.head?, ¬ p c) :
    (pre ++ post).takeWhile p = pre ∧ (pre ++ post).dropWhile p = post := by
  rw [List.takeWhile_append_of_pos hpre, List.dropWhile_append_of_pos hpre]
  cases post with
  | nil => exact ⟨List.append_nil pre, rfl⟩
  | cons c post =>
    rw [List.takeWhile_cons_of_neg (hpost c rfl), List.dropWhile_cons_of_neg (hpost c rfl),
      List.append_nil]
    exact ⟨rfl, rfl⟩

/-- What is dropped at the end of a line is white space, so dropping it does not tell in the
token. -/
theorem exists_dropReturn (cs : List Char) : ∃ post, cs = dropReturn cs ++ post ∧ Blank post := by
  induction cs using dropReturn.induct with
  | case1 => exact ⟨[], rfl, fun _ h => absurd h List.not_mem_nil⟩
  | case2 => exact ⟨['\r'], rfl, blank_return⟩
  | case3 c cs hc ih =>
    obtain ⟨post, hcs, hpost⟩ := ih
    refine ⟨post, ?_, hpost⟩
    rw [dropReturn, List.cons_append, ← hcs]
    exact hc

theorem pieces_of_not_mem (h : '\n' ∉ cs) : pieces (· == '\n') cs = [cs] := by
  rw [pieces_eq_splitOnP]
  exact List.splitOn_eq_singleton h

/-- A text is cut at its first line end, and the rest is cut by itself. -/
theorem pieces_append_cons (h : '\n' ∉ line) (rest : List Char) :
    pieces (· == '\n') (line ++ '\n' :: rest) = line :: pieces (· == '\n') rest := by
  rw [pieces_eq_splitOnP, pieces_eq_splitOnP]
  exact List.splitOn_append_cons_self_of_not_mem h rest

end Text

/-! ## Lines -/

namespace Token

/-- White space at the end of a line is no part of its token. -/
theorem ofLine?_append_blank (cs : List Char) (hpost : Blank post) :
    ofLine? (cs ++ post) = ofLine? cs := by
  rw [ofLine?, ofLine?, Text.trim_append_blank cs hpost]

theorem ofLine?_dropReturn (cs : List Char) : ofLine? (Text.dropReturn cs) = ofLine? cs := by
  obtain ⟨post, hcs, hpost⟩ := Text.exists_dropReturn cs
  conv_rhs => rw [hcs, ofLine?_append_blank _ hpost]

/-- The kind ends at the first white space behind it. -/
theorem ofLine?_append (hpre : Blank pre) (hne : kind ≠ []) (hkind : ∀ c ∈ kind, ¬ Text.isBlank c)
    (hrest : ∀ c ∈ rest.head?, Text.isBlank c) :
    ofLine? (pre ++ kind ++ rest) = some ⟨String.ofList kind,
      if (Text.trim rest).isEmpty then none else some (String.ofList (Text.trim rest))⟩ := by
  obtain ⟨post, hcut, hpost⟩ := Text.exists_trimEnd rest
  have hlexeme : Text.trim (Text.trimEnd rest) = Text.trim rest := by
    conv_rhs => rw [hcut, Text.trim_append_blank _ hpost]
  have hword : ∀ c ∈ kind, (!Text.isBlank c) = true := fun c hc => by simpa using hkind c hc
  have hstop : ∀ c ∈ (Text.trimEnd rest).head?, ¬ (!Text.isBlank c) = true := fun c hc => by
    rw [hcut, List.head?_append, Option.mem_def.mp hc] at hrest
    simpa using hrest c rfl
  obtain ⟨htake, hdrop⟩ := Text.takeWhile_append_of_head? hword hstop
  simp only [ofLine?, Text.trim_append_word hpre hne hkind, htake, hdrop, hlexeme]
  rw [if_neg (by simpa using hne)]

/-- **What is written on a line is read from it.** -/
theorem IsLine.ofLine?_eq (h : IsLine t? cs) (hwritable : ∀ t ∈ t?, t.IsWritable) :
    ofLine? cs = t? := by
  cases h with
  | blank gap hgap =>
    rw [ofLine?, Text.trim_blank hgap.blank]
    rfl
  | kind before kind after hbefore hafter =>
    obtain ⟨hne, hkind, -⟩ := hwritable _ rfl
    rw [ofLine?_append hbefore.blank hne hkind fun c hc =>
      hafter.blank c (List.mem_of_mem_head? hc), Text.trim_blank hafter.blank, String.ofList_toList]
    rfl
  | lexeme before kind between lexeme after hbefore hbetween hbetweenne hafter =>
    obtain ⟨hne, hkind, hlexeme⟩ := hwritable _ rfl
    obtain ⟨hlexemene, -, htrimmed⟩ := hlexeme lexeme rfl
    rw [List.append_assoc _ between, List.append_assoc _ (between ++ lexeme.toList),
      ofLine?_append hbefore.blank hne hkind fun c hc => ?_,
      Text.trim_append htrimmed hbetween.blank hafter.blank, if_neg (by simpa using hlexemene),
      String.ofList_toList, String.ofList_toList]
    rw [List.append_assoc, List.head?_append_of_ne_nil between hbetweenne] at hc
    exact hbetween.blank c (List.mem_of_mem_head? hc)

/-- A kind and the lexeme behind it, if there is one, are written on a line. -/
theorem isLine_some (hbefore : Gap before) (hbetween : Gap between) (hafter : Gap after)
    (hne : lexeme ≠ [] → between ≠ []) :
    IsLine (some ⟨String.ofList kind,
      if lexeme.isEmpty then none else some (String.ofList lexeme)⟩)
      (before ++ kind ++ (between ++ lexeme ++ after)) := by
  by_cases hlexeme : lexeme = []
  · subst hlexeme
    have hline := IsLine.kind before (String.ofList kind) (between ++ after) hbefore
      ⟨hbetween.blank.append hafter.blank, by simp [hbetween.not_newline, hafter.not_newline]⟩
    rw [String.toList_ofList] at hline
    rwa [List.append_nil]
  · have hline := IsLine.lexeme before (String.ofList kind) between (String.ofList lexeme) after
      hbefore hbetween (hne hlexeme) hafter
    rw [String.toList_ofList, String.toList_ofList] at hline
    rw [if_neg (by simpa using hlexeme)]
    simpa using hline

/-- A kind without white space, with or without a trimmed lexeme, can be written on a line. -/
theorem isWritable_ofList (hne : kind ≠ []) (hkind : ∀ c ∈ kind, ¬ Text.isBlank c)
    (hlexeme : Trimmed lexeme) (hnewline : '\n' ∉ lexeme) :
    IsWritable ⟨String.ofList kind,
      if lexeme.isEmpty then none else some (String.ofList lexeme)⟩ := by
  refine ⟨by simpa using hne, by simpa using hkind, fun s hs => ?_⟩
  obtain ⟨hlexemene, hs⟩ := Option.ite_none_left_eq_some.mp hs
  obtain rfl := Option.some.inj hs
  rw [String.toList_ofList]
  exact ⟨by simpa using hlexemene, hnewline, hlexeme⟩

/-- **Every line is written with what is read from it.** -/
theorem isLine_ofLine? (h : '\n' ∉ line) :
    IsLine (ofLine? line) line ∧ ∀ t ∈ ofLine? line, t.IsWritable := by
  rcases Text.blank_or_exists_word line with
    hblank | ⟨before, kind, rest, rfl, hbefore, hne, hkind, hrest, -⟩
  · rw [ofLine?, Text.trim_blank hblank]
    exact ⟨.blank line ⟨hblank, h⟩, fun t ht => absurd ht (Option.not_mem_none t)⟩
  · obtain ⟨between, after, hcut, hbetween, hafter⟩ := Text.exists_trim rest
    have htrimmed := Text.trimmed_trim rest
    rw [ofLine?_append hbefore hne hkind hrest]
    generalize Text.trim rest = lexeme at hcut htrimmed
    subst hcut
    simp only [List.mem_append, not_or] at h
    obtain ⟨⟨hbefore', -⟩, ⟨hbetween', hlexeme'⟩, hafter'⟩ := h
    refine ⟨isLine_some ⟨hbefore, hbefore'⟩ ⟨hbetween, hbetween'⟩ ⟨hafter, hafter'⟩ ?_,
      fun t ht => Option.some.inj ht ▸ isWritable_ofList hne hkind htrimmed hlexeme'⟩
    -- a lexeme right behind the kind would begin with the white space that ends the kind
    rintro hlexeme rfl
    obtain ⟨c, lexeme, rfl⟩ := List.exists_cons_of_ne_nil hlexeme
    exact htrimmed.head c rfl (hrest c rfl)

end Token

/-! ## Texts -/

/-- Returns before line ends are blanks at the end, and an empty line has no token. -/
theorem Token.filterMap_lines (cs : List Char) :
    (Text.lines cs).filterMap ofLine? = (Text.pieces (· == '\n') cs).filterMap ofLine? := by
  rw [Text.lines]
  generalize Text.pieces (· == '\n') cs = stretches
  induction stretches using Text.linesOf.induct with
  | case1 => rfl
  | case2 stretch h =>
    obtain rfl := List.isEmpty_iff.mp h
    rfl
  | case3 stretch h => rw [Text.linesOf, if_neg h]
  | case4 stretch stretches h ih =>
    rw [Text.linesOf, List.filterMap_cons, List.filterMap_cons, ofLine?_dropReturn, ih]
    exact h

/-- A text without line ends has the token of its only line, if that has one. -/
theorem Token.filterMap_pieces_of_not_mem (h : '\n' ∉ cs) :
    (Text.pieces (· == '\n') cs).filterMap ofLine? = (ofLine? cs).toList := by
  rw [Text.pieces_of_not_mem h, List.filterMap_cons]
  cases ofLine? cs <;> rfl

/-- The tokens of a text that its first line end cuts in two. -/
theorem Token.filterMap_pieces_append_cons (h : '\n' ∉ line) (rest : List Char) :
    (Text.pieces (· == '\n') (line ++ '\n' :: rest)).filterMap ofLine? =
      (ofLine? line).toList ++ (Text.pieces (· == '\n') rest).filterMap ofLine? := by
  rw [Text.pieces_append_cons h, List.filterMap_cons]
  cases ofLine? line <;> rfl

/-- A written token has no line end in it: neither a gap nor the parts have one. -/
theorem Token.IsLine.not_newline (h : IsLine t? line) (hwritable : ∀ t ∈ t?, t.IsWritable) :
    '\n' ∉ line := by
  have hkind (t : Token) (ht : t.IsWritable) : '\n' ∉ t.kind.toList :=
    fun hmem => ht.kind_not_blank _ hmem (by decide)
  cases h with
  | blank gap hgap => exact hgap.not_newline
  | kind before kind after hbefore hafter =>
    simpa [hbefore.not_newline, hafter.not_newline] using hkind _ (hwritable _ rfl)
  | lexeme before kind between lexeme after hbefore hbetween _ hafter =>
    have hlexeme := ((hwritable _ rfl).lexeme lexeme rfl).2.1
    simpa [hbefore.not_newline, hbetween.not_newline, hafter.not_newline, hlexeme] using
      hkind _ (hwritable _ rfl)

/-- What is written in a text is read from it. -/
theorem TokenText.filterMap_pieces_eq (h : TokenText tokens cs)
    (hwritable : ∀ t ∈ tokens, t.IsWritable) :
    (Text.pieces (· == '\n') cs).filterMap Token.ofLine? = tokens := by
  induction h with
  | @last t? line hline =>
    simp only [Option.mem_toList] at hwritable
    rw [Token.filterMap_pieces_of_not_mem (hline.not_newline hwritable),
      hline.ofLine?_eq hwritable]
  | @line t? tokens line rest ending hending hline _ ih =>
    obtain ⟨hfirst, hlater⟩ := List.forall_mem_append.mp hwritable
    simp only [Option.mem_toList] at hfirst
    have hnewline := hline.not_newline hfirst
    rw [← ih hlater]
    conv_rhs => rw [← hline.ofLine?_eq hfirst]
    rcases List.mem_pair.mp hending with rfl | rfl
    · rw [List.append_assoc, List.singleton_append, Token.filterMap_pieces_append_cons hnewline]
    · have hcut : line ++ ['\r', '\n'] ++ rest = line ++ ['\r'] ++ '\n' :: rest := by simp
      rw [hcut, Token.filterMap_pieces_append_cons (by simpa using hnewline),
        Token.ofLine?_append_blank line blank_return]

/-- Every text is written with what is read from it. -/
theorem tokenText_filterMap_pieces (cs : List Char) :
    TokenText ((Text.pieces (· == '\n') cs).filterMap Token.ofLine?) cs ∧
      ∀ t ∈ (Text.pieces (· == '\n') cs).filterMap Token.ofLine?, t.IsWritable := by
  by_cases hmem : '\n' ∈ cs
  · obtain ⟨line, rest, hcut, hline⟩ := List.eq_append_cons_of_mem hmem
    have hlength : rest.length < cs.length := by
      rw [hcut, List.length_append, List.length_cons]
      omega
    obtain ⟨htext, hlater⟩ := tokenText_filterMap_pieces rest
    obtain ⟨hisLine, hfirst⟩ := Token.isLine_ofLine? hline
    rw [hcut, Token.filterMap_pieces_append_cons hline]
    refine ⟨?_, List.forall_mem_append.mpr ⟨by simpa using hfirst, hlater⟩⟩
    have hwhole := TokenText.line ['\n'] List.mem_cons_self hisLine htext
    rwa [List.append_assoc, List.singleton_append] at hwhole
  · obtain ⟨hisLine, hwritable⟩ := Token.isLine_ofLine? hmem
    rw [Token.filterMap_pieces_of_not_mem hmem]
    exact ⟨.last hisLine, by simpa using hwritable⟩
termination_by cs.length

/-! ## Streams -/

namespace TokenStream

/-- **The tokens of a text**: these and no others, when each can be written on a line and the text
is written with them. -/
theorem ofText_eq_ofList_iff : ofText text = ofList tokens ↔
    (∀ t ∈ tokens, t.IsWritable) ∧ TokenText tokens text.toList := by
  rw [ofText, Token.filterMap_lines]
  constructor
  · intro h
    obtain rfl : (Text.pieces (· == '\n') text.toList).filterMap Token.ofLine? = tokens :=
      congrArg rest h
    exact (tokenText_filterMap_pieces text.toList).symm
  · rintro ⟨hwritable, htext⟩
    rw [htext.filterMap_pieces_eq hwritable]

/-- Popping drops from the front, and there is nothing left to drop after the last token. -/
theorem rest_pop_iterate : (pop^[n] stream).rest = stream.rest.drop n := by
  induction n generalizing stream with
  | zero => rfl
  | succ n ih =>
    rw [Function.iterate_succ_apply, ih]
    obtain ⟨position, rest⟩ := stream
    cases rest <;> simp [pop]

/-- A stream shows its tokens and then end marks. -/
theorem peek_pop_iterate : (pop^[n] stream).peek = stream.rest[n]?.getD Token.endMark := by
  rw [peek, rest_pop_iterate, List.head?_drop]

/-- **Reading a token text.**  Whatever the text is, the stream shows only tokens that a line can
hold, and when the text is written with some such tokens, with any gaps, blank lines and line ends,
it shows exactly these and then end marks. -/
theorem ofText_shows (text : String) : (∀ n, (pop^[n] (ofText text)).peek.IsWritable) ∧
    ∀ tokens : List Token, (∀ t ∈ tokens, t.IsWritable) → TokenText tokens text.toList →
      (ofText text).rest = tokens ∧
        ∀ n, (pop^[n] (ofText text)).peek = tokens[n]?.getD Token.endMark := by
  constructor
  · intro n
    have hwritable := (ofText_eq_ofList_iff.mp (rfl : ofText text = ofList (ofText text).rest)).1
    rw [peek_pop_iterate]
    cases ht : (ofText text).rest[n]? with
    | none => exact Token.isWritable_endMark
    | some t => exact hwritable t (List.mem_of_getElem? ht)
  · intro tokens hwritable htext
    have h := ofText_eq_ofList_iff.mpr ⟨hwritable, htext⟩
    exact ⟨congrArg rest h, fun n => by rw [peek_pop_iterate, h]; rfl⟩

theorem ofText_shows_mixed :
    (ofText "  id\t x 1 \r\n\n plus\u3000").rest = [⟨"id", some "x 1"⟩, ⟨"plus", none⟩] ∧
      (pop^[5] (ofText "  id\t x 1 \r\n\n plus\u3000")).peek = Token.endMark := by
  have htext : TokenText [⟨"id", some "x 1"⟩, ⟨"plus", none⟩]
      "  id\t x 1 \r\n\n plus\u3000".toList :=
    .line ['\r', '\n'] (by decide)
      (.lexeme [' ', ' '] "id" ['\t', ' '] "x 1" [' '] (by decide) (by decide) (by decide)
        (by decide))
      (.line ['\n'] (by decide) (.blank [] (by decide))
        (.last (.kind [' '] "plus" ['\u3000'] (by decide) (by decide))))
  obtain ⟨hrest, hpeek⟩ := (ofText_shows "  id\t x 1 \r\n\n plus\u3000").2 _ (by decide) htext
  exact ⟨hrest, hpeek 5⟩

end TokenStream

end GrammarTables
