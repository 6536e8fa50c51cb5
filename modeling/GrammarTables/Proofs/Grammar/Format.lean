import GrammarTables.Grammar.Rule
import Mathlib.Data.List.TakeWhile

/-!
# Proofs/Grammar/Format — which texts the loader reads, and what their lines say

The format is stated without the reader: `Line.IsRule` and `Line.IsContinuation` say which lines are
one and what they give, `Describes` which rules the lines of a text give, and `Faulty` which lines
have no place in it.

A line is cut up at its arrows (`arrowPieces`) and then at bars and white space, so the first half
of the module says what cutting leaves (`arrowPieces_cases`, `Text.words_append`).  The second half
reads off one line (`Line.read_of_isRule` and its neighbours) and then all of them, by induction
on the lines: without a fault they give the rules that `Describes` says, and otherwise the first
fault decides the error.
-/

namespace GrammarTables

variable {c : Char} {cs body pre post left right : List Char} {rule : Rule}
  {alternatives : Alternatives} {lines above : List (List Char)} {left? : Option String}
  {rules : List Rule} {number i : Nat}

/-! ## The format -/

/-- Nothing but white space. -/
def Blank (cs : List Char) : Prop :=
  ∀ c ∈ cs, Text.isBlank c

/-- Somewhere in the text is an arrow. -/
def HasArrow (cs : List Char) : Prop :=
  ['-', '>'] <:+: cs

/-- The names of the empty string and of the end mark. -/
def reservedNames : List String :=
  ["lambda", "\u03b5", "\u03f5", "$"]

/-- The alternatives between the bars of a text, each as the names between its white space. -/
def alternativesOf (body : List Char) : Alternatives :=
  (body.splitOn '|').map fun piece =>
    ((piece.splitOnP Text.isBlank).filter fun word => !word.isEmpty).map String.ofList

namespace Line

/-- A rule: one arrow, and before it one name that is not reserved. -/
inductive IsRule : List Char → Rule → Prop
  | intro (pre left post body : List Char) (hpre : Blank pre) (hne : left ≠ [])
    (hleft : ∀ c ∈ left, ¬ Text.isBlank c) (hname : String.ofList left ∉ reservedNames)
    (hpost : Blank post) (harrow : ¬ HasArrow (pre ++ left ++ post)) (hbody : ¬ HasArrow body) :
    IsRule (pre ++ left ++ post ++ '-' :: '>' :: body) ⟨String.ofList left, alternativesOf body⟩

/-- A continuation: no arrow, and a bar in front. -/
inductive IsContinuation : List Char → Alternatives → Prop
  | intro (pre body : List Char) (hpre : Blank pre) (harrow : ¬ HasArrow (pre ++ '|' :: body)) :
    IsContinuation (pre ++ '|' :: body) (alternativesOf body)

end Line

/-- The rules that lines give, one for each line that is not blank, when `left?` is the left side
above them. -/
inductive Describes : Option String → List (List Char) → List Rule → Prop
  | nil (left? : Option String) : Describes left? [] []
  | blank {left? : Option String} {cs : List Char} {lines : List (List Char)} {rules : List Rule}
    (hcs : Blank cs) (h : Describes left? lines rules) : Describes left? (cs :: lines) rules
  | rule {left? : Option String} {cs : List Char} {rule : Rule} {lines : List (List Char)}
    {rules : List Rule} (hcs : Line.IsRule cs rule) (h : Describes (some rule.left) lines rules) :
    Describes left? (cs :: lines) (rule :: rules)
  | continuation {left : String} {cs : List Char} {alternatives : Alternatives}
    {lines : List (List Char)} {rules : List Rule} (hcs : Line.IsContinuation cs alternatives)
    (h : Describes (some left) lines rules) :
    Describes (some left) (cs :: lines) (⟨left, alternatives⟩ :: rules)

/-- The line at place `i` is not blank, and it is neither a rule nor a continuation below one. -/
def Faulty (lines : List (List Char)) (i : Nat) : Prop :=
  ∃ cs, lines[i]? = some cs ∧ ¬ Blank cs ∧ (¬ ∃ rule, Line.IsRule cs rule) ∧
    ¬ ((∃ alternatives, Line.IsContinuation cs alternatives) ∧
      ∃ above ∈ lines.take i, ∃ rule, Line.IsRule above rule)

/-! ## Arrows -/

theorem hasArrow_cons : HasArrow (c :: cs) ↔ c = '-' ∧ cs.head? = some '>' ∨ HasArrow cs := by
  rw [HasArrow, List.infix_cons_iff, List.cons_prefix_cons, eq_comm, HasArrow]
  refine or_congr (and_congr_right fun _ => ?_) Iff.rfl
  cases cs with
  | nil => simp
  | cons d cs => simp [eq_comm]

/-- A character before which no arrow starts. -/
theorem arrowPieces_cons (h : ¬ (c = '-' ∧ cs.head? = some '>')) :
    arrowPieces (c :: cs) = (arrowPieces cs).modifyHead (c :: ·) := by
  rw [arrowPieces]
  rintro d rfl rfl
  exact h ⟨rfl, rfl⟩

theorem arrowPieces_of_not_hasArrow (h : ¬ HasArrow cs) : arrowPieces cs = [cs] := by
  induction cs with
  | nil => rfl
  | cons c cs ih =>
    obtain ⟨hhere, hlater⟩ := not_or.mp (mt hasArrow_cons.mpr h)
    rw [arrowPieces_cons hhere, ih hlater]
    rfl

theorem arrowPieces_append (h : ¬ HasArrow left) :
    arrowPieces (left ++ '-' :: '>' :: right) = left :: arrowPieces right := by
  induction left with
  | nil => rfl
  | cons c left ih =>
    obtain ⟨hhere, hlater⟩ := not_or.mp (mt hasArrow_cons.mpr h)
    rw [List.cons_append, arrowPieces_cons, ih hlater]
    · rfl
    · rintro ⟨rfl, hhead⟩
      cases left with
      | nil => exact absurd (Option.some.inj hhead) (by decide)
      | cons d left => exact hhere ⟨rfl, hhead⟩

/-- A text with an arrow has a first one. -/
theorem exists_of_hasArrow (h : HasArrow cs) :
    ∃ left right, cs = left ++ '-' :: '>' :: right ∧ ¬ HasArrow left := by
  induction cs with
  | nil => exact absurd (List.eq_nil_of_infix_nil h) (List.cons_ne_nil _ _)
  | cons c cs ih =>
    by_cases hhere : c = '-' ∧ cs.head? = some '>'
    · obtain ⟨rfl, hhead⟩ := hhere
      obtain ⟨right, rfl⟩ := List.head?_eq_some_iff.mp hhead
      exact ⟨[], right, rfl, fun hnil => List.cons_ne_nil _ _ (List.eq_nil_of_infix_nil hnil)⟩
    · obtain ⟨left, right, rfl, hleft⟩ := ih ((hasArrow_cons.mp h).resolve_left hhere)
      refine ⟨c :: left, right, rfl, fun harrow => ?_⟩
      rcases hasArrow_cons.mp harrow with ⟨rfl, hhead⟩ | harrow
      · obtain ⟨rest, rfl⟩ := List.head?_eq_some_iff.mp hhead
        exact hhere ⟨rfl, rfl⟩
      · exact hleft harrow

/-- **The stretches between the arrows**: one without an arrow, two around one arrow, more
otherwise. -/
theorem arrowPieces_cases (cs : List Char) :
    ¬ HasArrow cs ∧ arrowPieces cs = [cs] ∨
    (∃ left right, cs = left ++ '-' :: '>' :: right ∧ ¬ HasArrow left ∧ ¬ HasArrow right ∧
      arrowPieces cs = [left, right]) ∨
    ∃ a b d pieces, arrowPieces cs = a :: b :: d :: pieces := by
  by_cases h : HasArrow cs
  · obtain ⟨left, right, rfl, hleft⟩ := exists_of_hasArrow h
    rw [arrowPieces_append hleft]
    by_cases hright : HasArrow right
    · obtain ⟨left', right', rfl, hleft'⟩ := exists_of_hasArrow hright
      rw [arrowPieces_append hleft']
      have hne : arrowPieces right' ≠ [] := by
        by_cases h' : HasArrow right'
        · obtain ⟨l, r, rfl, hl⟩ := exists_of_hasArrow h'
          rw [arrowPieces_append hl]
          exact List.cons_ne_nil _ _
        · rw [arrowPieces_of_not_hasArrow h']
          exact List.cons_ne_nil _ _
      obtain ⟨d, pieces, hpieces⟩ := List.exists_cons_of_ne_nil hne
      exact Or.inr (Or.inr ⟨left, left', d, pieces, by rw [hpieces]⟩)
    · rw [arrowPieces_of_not_hasArrow hright]
      exact Or.inr (Or.inl ⟨left, right, rfl, hleft, hright, rfl⟩)
  · exact Or.inl ⟨h, arrowPieces_of_not_hasArrow h⟩

/-! ## White space -/

namespace Text

theorem pieces_eq_splitOnP (p : Char → Bool) (cs : List Char) : pieces p cs = cs.splitOnP p := by
  induction cs with
  | nil => rfl
  | cons c cs ih => rw [pieces, List.splitOnP_cons_eq_if_modifyHead, ih]

/-- White space ends a word. -/
theorem words_append_cons (left right : List Char) (h : isBlank c) :
    words (left ++ c :: right) = words left ++ words right := by
  rw [words, pieces_eq_splitOnP, List.splitOnP_append_cons left right h, List.filter_append, words,
    words, pieces_eq_splitOnP, pieces_eq_splitOnP]

theorem words_of_blank (h : Blank cs) : words cs = [] := by
  induction cs with
  | nil => rfl
  | cons c cs ih =>
    have hwords := words_append_cons [] cs (h c List.mem_cons_self)
    rw [List.nil_append] at hwords
    rw [hwords, ih fun d hd => h d (List.mem_cons_of_mem c hd)]
    rfl

/-- White space at the end gives no words. -/
theorem words_append_blank (h : Blank post) : words (cs ++ post) = words cs := by
  cases post with
  | nil => rw [List.append_nil]
  | cons c post =>
    rw [words_append_cons cs post (h c List.mem_cons_self),
      words_of_blank fun d hd => h d (List.mem_cons_of_mem c hd), List.append_nil]

/-- White space in front gives no words. -/
theorem words_blank_append (cs : List Char) (h : Blank pre) :
    words (pre ++ cs) = words cs := by
  induction pre with
  | nil => rfl
  | cons c pre ih =>
    have hwords := words_append_cons [] (pre ++ cs) (h c List.mem_cons_self)
    rw [List.nil_append] at hwords
    rw [List.cons_append, hwords, ih fun d hd => h d (List.mem_cons_of_mem c hd)]
    rfl

/-- A stretch without white space is one word. -/
theorem words_of_not_blank (hne : left ≠ []) (hleft : ∀ c ∈ left, ¬ isBlank c) :
    words left = [left] := by
  have hkeep : (!left.isEmpty) = true := by simpa using hne
  rw [words, pieces_eq_splitOnP,
    List.splitOnP_eq_singleton fun c hc => Bool.eq_false_iff.mpr (hleft c hc)]
  exact List.filter_cons_of_pos hkeep

/-- **A stretch without white space is the first word**, if white space or nothing comes after
it. -/
theorem words_append (hne : left ≠ []) (hleft : ∀ c ∈ left, ¬ isBlank c)
    (hright : ∀ c ∈ right.head?, isBlank c) : words (left ++ right) = left :: words right := by
  cases right with
  | nil => rw [List.append_nil, words_of_not_blank hne hleft]; rfl
  | cons c right =>
    have hc := hright c rfl
    have hskip : words ([c] ++ right) = words right :=
      words_blank_append right fun d hd => List.mem_singleton.mp hd ▸ hc
    rw [words_append_cons left right hc, words_of_not_blank hne hleft, ← hskip]
    rfl

/-- **A text is blank, or it has a first word.** -/
theorem blank_or_exists_word (cs : List Char) : Blank cs ∨ ∃ pre left right,
    cs = pre ++ left ++ right ∧ Blank pre ∧ left ≠ [] ∧ (∀ c ∈ left, ¬ isBlank c) ∧
      (∀ c ∈ right.head?, isBlank c) ∧ words cs = left :: words right := by
  have hcut := List.takeWhile_append_dropWhile (p := isBlank) (l := cs)
  have hpre : Blank (cs.takeWhile isBlank) := fun c hc => List.mem_takeWhile_imp hc
  have hhead := List.head?_dropWhile_not isBlank cs
  generalize cs.dropWhile isBlank = rest at hcut hhead
  cases rest with
  | nil =>
    rw [List.append_nil] at hcut
    exact Or.inl (hcut ▸ hpre)
  | cons c rest =>
    have hcut' := List.takeWhile_append_dropWhile (p := fun c => !isBlank c) (l := c :: rest)
    have hne : (c :: rest).takeWhile (fun c => !isBlank c) ≠ [] := by
      rw [List.takeWhile_cons_of_pos (by simpa using hhead)]
      exact List.cons_ne_nil _ _
    have hleft : ∀ d ∈ (c :: rest).takeWhile fun c => !isBlank c, ¬ isBlank d := fun d hd => by
      simpa using List.mem_takeWhile_imp hd
    have hright : ∀ d ∈ ((c :: rest).dropWhile fun c => !isBlank c).head?, isBlank d := by
      intro d hd
      have hnot := List.head?_dropWhile_not (fun c => !isBlank c) (c :: rest)
      rw [Option.mem_def.mp hd] at hnot
      simpa using hnot
    refine Or.inr
      ⟨_, _, (c :: rest).dropWhile fun c => !isBlank c, ?_, hpre, hne, hleft, hright, ?_⟩
    · rw [List.append_assoc, hcut', hcut]
    · have hwords := words_blank_append (c :: rest) hpre
      rw [hcut] at hwords
      rw [hwords, ← words_append hne hleft hright, hcut']

theorem words_eq_nil_iff : words cs = [] ↔ Blank cs := by
  refine ⟨fun h => (blank_or_exists_word cs).resolve_right ?_, words_of_blank⟩
  rintro ⟨pre, left, right, -, -, -, -, -, hwords⟩
  exact List.cons_ne_nil _ _ (hwords.symm.trans h)

/-- **A text with one word is that word with white space around it.** -/
theorem words_eq_singleton_iff : words cs = [left] ↔ ∃ pre post,
    cs = pre ++ left ++ post ∧ Blank pre ∧ Blank post ∧ left ≠ [] ∧ ∀ c ∈ left, ¬ isBlank c := by
  constructor
  · intro h
    rcases blank_or_exists_word cs with
      hblank | ⟨pre, left', post, rfl, hpre, hne, hleft, -, hwords⟩
    · rw [words_of_blank hblank] at h
      exact nomatch h
    · obtain ⟨rfl, hpost⟩ := List.cons.inj (hwords.symm.trans h)
      exact ⟨pre, post, rfl, hpre, words_eq_nil_iff.mp hpost, hne, hleft⟩
  · rintro ⟨pre, post, rfl, hpre, hpost, hne, hleft⟩
    rw [words_append_blank hpost, words_blank_append left hpre, words_of_not_blank hne hleft]

/-- What trimming drops at the end. -/
theorem exists_trimEnd (cs : List Char) : ∃ post, cs = trimEnd cs ++ post ∧ Blank post := by
  induction cs with
  | nil => exact ⟨[], rfl, fun _ h => absurd h List.not_mem_nil⟩
  | cons c cs ih =>
    obtain ⟨post, hcs, hpost⟩ := ih
    rw [trimEnd]
    split
    · next hnil =>
      rw [hnil, List.nil_append] at hcs
      split
      · next hc => exact ⟨c :: cs, rfl, List.forall_mem_cons.mpr ⟨hc, hcs ▸ hpost⟩⟩
      · exact ⟨post, by rw [hcs]; rfl, hpost⟩
    · next d ds hcons =>
      refine ⟨post, ?_, hpost⟩
      rw [← hcons, List.cons_append, ← hcs]

/-- What trimming drops. -/
theorem exists_trim (cs : List Char) :
    ∃ pre post, cs = pre ++ trim cs ++ post ∧ Blank pre ∧ Blank post := by
  obtain ⟨post, hcut, hpost⟩ := exists_trimEnd (cs.dropWhile isBlank)
  refine ⟨cs.takeWhile isBlank, post, ?_, fun c hc => List.mem_takeWhile_imp hc, hpost⟩
  rw [trim, List.append_assoc, ← hcut, List.takeWhile_append_dropWhile]

end Text

/-! ## Alternatives -/

theorem readAlternatives_eq : readAlternatives body = alternativesOf body := by
  rw [readAlternatives, Text.pieces_eq_splitOnP]
  refine List.map_congr_left fun piece _ => ?_
  rw [Text.words, Text.pieces_eq_splitOnP]

/-- There is always an alternative. -/
theorem alternativesOf_ne_nil : alternativesOf body ≠ [] :=
  mt List.map_eq_nil_iff.mp (List.splitOn_ne_nil '|' body)

theorem alternativesOf_append_bar :
    alternativesOf (left ++ '|' :: right) = alternativesOf left ++ alternativesOf right := by
  rw [alternativesOf, List.splitOn_append_cons_self, List.map_append]
  rfl

/-- White space at the end changes no alternative. -/
theorem alternativesOf_append_blank (body : List Char) (h : Blank post) :
    alternativesOf (body ++ post) = alternativesOf body := by
  by_cases hbar : '|' ∈ body
  · obtain ⟨front, back, rfl⟩ := List.append_of_mem hbar
    have hlt : back.length < (front ++ '|' :: back).length := by simp; omega
    rw [List.append_assoc, List.cons_append, alternativesOf_append_bar,
      alternativesOf_append_blank back h, alternativesOf_append_bar]
  · have hbar' : '|' ∉ body ++ post := fun hmem =>
      (List.mem_append.mp hmem).elim hbar fun hmem => absurd (h '|' hmem) (by decide)
    have hwords : Text.words (body ++ post) = Text.words body := Text.words_append_blank h
    rw [Text.words, Text.words, Text.pieces_eq_splitOnP, Text.pieces_eq_splitOnP] at hwords
    rw [alternativesOf, List.splitOn_eq_singleton hbar', alternativesOf,
      List.splitOn_eq_singleton hbar, List.map_singleton, List.map_singleton, hwords]
termination_by body.length

/-! ## One line -/

theorem isReserved_iff {name : String} : isReserved name ↔ name ∈ reservedNames := by
  simp only [isReserved, Symbol.isCalled, Symbol.name, Bool.or_eq_true, decide_eq_true_eq]
  simp [Symbol.epsilonName, Symbol.epsilonAliases, Symbol.endMarkName, reservedNames, or_assoc,
    @eq_comm _ "$" name]

theorem readLeft_eq_ok_iff {name : String} : readLeft cs = .ok name ↔ ∃ pre left post,
    cs = pre ++ left ++ post ∧ Blank pre ∧ Blank post ∧ left ≠ [] ∧
      (∀ c ∈ left, ¬ Text.isBlank c) ∧ name = String.ofList left ∧ name ∉ reservedNames := by
  constructor
  · intro h
    rw [readLeft] at h
    split at h
    · exact nomatch h
    · next left hwords =>
      split at h
      · exact nomatch h
      · next hname =>
        obtain rfl := Except.ok.inj h
        obtain ⟨pre, post, hcs, hpre, hpost, hne, hleft⟩ := Text.words_eq_singleton_iff.mp hwords
        exact ⟨pre, left, post, hcs, hpre, hpost, hne, hleft, rfl, mt isReserved_iff.mpr hname⟩
    · exact nomatch h
  · rintro ⟨pre, left, post, hcs, hpre, hpost, hne, hleft, rfl, hname⟩
    rw [readLeft, Text.words_eq_singleton_iff.mpr ⟨pre, post, hcs, hpre, hpost, hne, hleft⟩]
    exact if_neg (mt isReserved_iff.mp hname)

theorem all_isBlank_iff : cs.all Text.isBlank ↔ Blank cs :=
  List.all_eq_true

/-- A bar is not white space. -/
theorem not_blank_append_bar : ¬ Blank (pre ++ '|' :: body) := fun h =>
  absurd (h '|' (by simp)) (by decide)

/-- **What trimming leaves begins with a bar** when the text does, up to white space. -/
theorem trim_eq_bar_cons_iff : (∃ rest, Text.trim cs = '|' :: rest ∧
    alternativesOf rest = alternatives) ↔
      ∃ pre body, cs = pre ++ '|' :: body ∧ Blank pre ∧ alternativesOf body = alternatives := by
  constructor
  · rintro ⟨rest, htrim, rfl⟩
    obtain ⟨pre, post, hcs, hpre, hpost⟩ := Text.exists_trim cs
    rw [htrim, List.append_assoc] at hcs
    exact ⟨pre, rest ++ post, hcs, hpre, alternativesOf_append_blank rest hpost⟩
  · rintro ⟨pre, body, rfl, hpre, rfl⟩
    have hdrop : (pre ++ '|' :: body).dropWhile Text.isBlank = '|' :: body := by
      rw [List.dropWhile_append_of_pos hpre]
      rfl
    obtain ⟨post, hbody, hpost⟩ := Text.exists_trimEnd body
    refine ⟨Text.trimEnd body, ?_, ?_⟩
    · rw [Text.trim, hdrop, Text.trimEnd]
      split
      · next hnil => rw [hnil]; rfl
      · next d ds hcons => rw [hcons]
    · rw [← alternativesOf_append_blank (Text.trimEnd body) hpost, ← hbody]

namespace Line

theorem read_of_blank (h : Blank cs) : Line.read cs = .ok .blank := by
  rw [Line.read, if_pos (all_isBlank_iff.mpr h)]

theorem read_of_isRule (h : IsRule cs rule) : Line.read cs = .ok (.rule rule) := by
  obtain ⟨pre, left, post, body, hpre, hne, hleft, hname, hpost, harrow, hbody⟩ := h
  have hnot : ¬ Blank (pre ++ left ++ post ++ '-' :: '>' :: body) := fun h =>
    absurd (h '-' (by simp)) (by decide)
  have hreadLeft : readLeft (pre ++ left ++ post) = .ok (String.ofList left) :=
    readLeft_eq_ok_iff.mpr ⟨pre, left, post, rfl, hpre, hpost, hne, hleft, rfl, hname⟩
  rw [Line.read, if_neg (mt all_isBlank_iff.mp hnot), arrowPieces_append harrow,
    arrowPieces_of_not_hasArrow hbody]
  dsimp only
  rw [hreadLeft, readAlternatives_eq]
  rfl

theorem read_of_isContinuation (h : IsContinuation cs alternatives) :
    Line.read cs = .ok (.continuation alternatives) := by
  obtain ⟨pre, body, hpre, harrow⟩ := h
  obtain ⟨rest, htrim, halternatives⟩ := trim_eq_bar_cons_iff.mpr ⟨pre, body, rfl, hpre, rfl⟩
  rw [Line.read, if_neg (mt all_isBlank_iff.mp not_blank_append_bar),
    arrowPieces_of_not_hasArrow harrow]
  dsimp only
  rw [htrim]
  exact congrArg (fun rest => Except.ok (Line.continuation rest))
    (readAlternatives_eq.trans halternatives)

theorem blank_of_read (h : Line.read cs = .ok .blank) : Blank cs := by
  rw [Line.read] at h
  split at h
  · next hblank => exact all_isBlank_iff.mp hblank
  · rcases arrowPieces_cases cs with
      ⟨-, hpieces⟩ | ⟨left, right, -, -, -, hpieces⟩ | ⟨a, b, d, pieces, hpieces⟩
    · rw [hpieces] at h
      dsimp only at h
      split at h <;> exact nomatch h
    · rw [hpieces] at h
      dsimp only at h
      cases hleft : readLeft left <;> rw [hleft] at h <;> exact nomatch h
    · rw [hpieces] at h
      exact nomatch h

theorem isRule_of_read (h : Line.read cs = .ok (.rule rule)) : IsRule cs rule := by
  rw [Line.read] at h
  split at h
  · exact nomatch h
  · rcases arrowPieces_cases cs with
      ⟨-, hpieces⟩ | ⟨left, right, rfl, hnone, hnone', hpieces⟩ | ⟨a, b, d, pieces, hpieces⟩
    · rw [hpieces] at h
      dsimp only at h
      split at h <;> exact nomatch h
    · rw [hpieces] at h
      dsimp only at h
      cases hleft : readLeft left with
      | error fault => rw [hleft] at h; exact nomatch h
      | ok name =>
        rw [hleft, readAlternatives_eq] at h
        obtain rfl := Line.rule.inj (Except.ok.inj h)
        obtain ⟨pre, word, post, rfl, hpre, hpost, hne, hword, rfl, hname⟩ :=
          readLeft_eq_ok_iff.mp hleft
        exact .intro pre word post right hpre hne hword hname hpost hnone hnone'
    · rw [hpieces] at h
      exact nomatch h

theorem isContinuation_of_read (h : Line.read cs = .ok (.continuation alternatives)) :
    IsContinuation cs alternatives := by
  rw [Line.read] at h
  split at h
  · exact nomatch h
  · rcases arrowPieces_cases cs with
      ⟨hnone, hpieces⟩ | ⟨left, right, -, -, -, hpieces⟩ | ⟨a, b, d, pieces, hpieces⟩
    · rw [hpieces] at h
      dsimp only at h
      split at h
      · next rest htrim =>
        obtain rfl := Line.continuation.inj (Except.ok.inj h)
        obtain ⟨pre, body, rfl, hpre, hbody⟩ :=
          trim_eq_bar_cons_iff.mp ⟨rest, htrim, readAlternatives_eq.symm⟩
        rw [← hbody]
        exact .intro pre body hpre hnone
      · exact nomatch h
    · rw [hpieces] at h
      dsimp only at h
      cases hleft : readLeft left <;> rw [hleft] at h <;> exact nomatch h
    · rw [hpieces] at h
      exact nomatch h

end Line

/-! ## All lines -/

theorem rulesFrom_blank (h : Blank cs) :
    rulesFrom number left? (cs :: lines) = rulesFrom (number + 1) left? lines := by
  simp only [rulesFrom, Line.read_of_blank h]

theorem rulesFrom_rule (h : Line.IsRule cs rule) : rulesFrom number left? (cs :: lines) =
    (rulesFrom (number + 1) (some rule.left) lines).map (rule :: ·) := by
  simp only [rulesFrom, Line.read_of_isRule h]

theorem rulesFrom_continuation {name : String} (h : Line.IsContinuation cs alternatives) :
    rulesFrom number (some name) (cs :: lines) =
      (rulesFrom (number + 1) (some name) lines).map (⟨name, alternatives⟩ :: ·) := by
  simp only [rulesFrom, Line.read_of_isContinuation h]

/-- A line that is not blank, no rule, and no continuation of one. -/
theorem exists_rulesFrom_eq_error (hblank : ¬ Blank cs) (hrule : ¬ ∃ rule, Line.IsRule cs rule)
    (hcontinuation : (∃ alternatives, Line.IsContinuation cs alternatives) → left? = none) :
    ∃ reason, rulesFrom number left? (cs :: lines) = .error (.malformed number reason) := by
  cases hread : Line.read cs with
  | error fault => exact ⟨fault.reason, by simp only [rulesFrom, hread]⟩
  | ok line =>
    cases line with
    | blank => exact absurd (Line.blank_of_read hread) hblank
    | rule rule => exact absurd ⟨rule, Line.isRule_of_read hread⟩ hrule
    | continuation alternatives =>
      obtain rfl := hcontinuation ⟨alternatives, Line.isContinuation_of_read hread⟩
      exact ⟨LineFault.noLeft.reason, by simp only [rulesFrom, hread]⟩
    | stray =>
      cases left? with
      | none => exact ⟨LineFault.noLeft.reason, by simp only [rulesFrom, hread]⟩
      | some left => exact ⟨LineFault.noArrow.reason, by simp only [rulesFrom, hread]⟩

/-- **Lines are read as the rules they give.** -/
theorem Describes.rulesFrom_eq (h : Describes left? lines rules) (number : Nat) :
    rulesFrom number left? lines = .ok rules := by
  induction h generalizing number with
  | nil => rfl
  | blank hcs _ ih => rw [rulesFrom_blank hcs, ih (number + 1)]
  | rule hcs _ ih =>
    rw [rulesFrom_rule hcs, ih (number + 1)]
    rfl
  | continuation hcs _ ih =>
    rw [rulesFrom_continuation hcs, ih (number + 1)]
    rfl

/-- Lines give their rules in one way only. -/
theorem Describes.unique {rules' : List Rule} (h : Describes left? lines rules)
    (h' : Describes left? lines rules') : rules = rules' :=
  Except.ok.inj ((h.rulesFrom_eq 1).symm.trans (h'.rulesFrom_eq 1))

/-- What every rule of a text satisfies. -/
theorem Describes.forall_rule (h : Describes left? lines rules)
    (hleft : ∀ left ∈ left?, left ∉ reservedNames) :
    ∀ rule ∈ rules, rule.left ∉ reservedNames ∧ rule.alternatives ≠ [] := by
  induction h with
  | nil => exact fun _ h => absurd h List.not_mem_nil
  | blank _ _ ih => exact ih hleft
  | rule hcs _ ih =>
    obtain ⟨pre, left, post, body, -, -, -, hname⟩ := hcs
    refine List.forall_mem_cons.mpr ⟨⟨hname, alternativesOf_ne_nil⟩, ih fun l hl => ?_⟩
    exact Option.mem_some_iff.mp hl ▸ hname
  | continuation hcs _ ih =>
    obtain ⟨pre, body, -, -⟩ := hcs
    exact List.forall_mem_cons.mpr ⟨⟨hleft _ rfl, alternativesOf_ne_nil⟩, ih hleft⟩

/-- Only blank lines give no rule. -/
theorem Describes.eq_nil_iff (h : Describes left? lines rules) :
    rules = [] ↔ ∀ cs ∈ lines, Blank cs := by
  induction h with
  | nil => exact ⟨fun _ _ h => absurd h List.not_mem_nil, fun _ => rfl⟩
  | blank hcs _ ih => rw [ih, List.forall_mem_cons, and_iff_right hcs]
  | rule hcs _ _ =>
    refine ⟨nofun, fun h => ?_⟩
    have hblank := Line.read_of_blank (h _ List.mem_cons_self)
    exact nomatch hblank.symm.trans (Line.read_of_isRule hcs)
  | continuation hcs _ _ =>
    refine ⟨nofun, fun h => ?_⟩
    have hblank := Line.read_of_blank (h _ List.mem_cons_self)
    exact nomatch hblank.symm.trans (Line.read_of_isContinuation hcs)

/-! ## The first fault -/

/-- There is a rule above exactly when its left side is known. -/
def Knows (left? : Option String) (above : List (List Char)) : Prop :=
  left?.isSome ↔ ∃ cs ∈ above, ∃ rule, Line.IsRule cs rule

theorem Knows.append (h : Knows left? above) (hcs : ¬ ∃ rule, Line.IsRule cs rule) :
    Knows left? (above ++ [cs]) := by
  refine Iff.trans h ⟨fun ⟨r, hr, hrule⟩ => ⟨r, List.mem_append_left _ hr, hrule⟩, ?_⟩
  rintro ⟨r, hr, hrule⟩
  rcases List.mem_append.mp hr with hr | hr
  · exact ⟨r, hr, hrule⟩
  · exact absurd (List.mem_singleton.mp hr ▸ hrule) hcs

theorem knows_append_rule (hcs : Line.IsRule cs rule) : Knows (some rule.left) (above ++ [cs]) :=
  ⟨fun _ => ⟨cs, by simp, rule, hcs⟩, fun _ => rfl⟩

/-- A line in its place. -/
theorem faulty_append_iff : Faulty (above ++ cs :: lines) above.length ↔
    ¬ Blank cs ∧ (¬ ∃ rule, Line.IsRule cs rule) ∧
      ¬ ((∃ alternatives, Line.IsContinuation cs alternatives) ∧
        ∃ cs' ∈ above, ∃ rule, Line.IsRule cs' rule) := by
  rw [Faulty, List.getElem?_append_right (Nat.le_refl _), Nat.sub_self, List.take_left']
  · simp
  · rfl

/-- The first fault of `lines`, when those `above` them are done and `left?` is their last left
side, decides the error. -/
def FailsFirst (above : List (List Char)) (left? : Option String) (lines : List (List Char)) :
    Prop :=
  ∃ i, Faulty (above ++ lines) (above.length + i) ∧
    (∀ j < i, ¬ Faulty (above ++ lines) (above.length + j)) ∧
      ∀ number, ∃ reason, rulesFrom number left? lines = .error (.malformed (number + i) reason)

/-- None of `lines` has a fault, when those `above` them are done. -/
def Faultless (above lines : List (List Char)) : Prop :=
  ∀ i, ¬ Faulty (above ++ lines) (above.length + i)

theorem length_append_singleton_add (j : Nat) :
    (above ++ [cs]).length + j = above.length + (j + 1) := by
  rw [List.length_append, List.length_singleton, Nat.add_assoc, Nat.add_comm 1 j]

theorem Faultless.cons (h : Faultless (above ++ [cs]) lines)
    (hcs : ¬ Faulty (above ++ cs :: lines) above.length) : Faultless above (cs :: lines) := by
  intro i
  cases i with
  | zero => exact hcs
  | succ i =>
    have hi := h i
    rwa [length_append_singleton_add, List.append_assoc, List.singleton_append] at hi

/-- A line without a fault passes on the error of those below it. -/
theorem FailsFirst.cons {below? : Option String} (h : FailsFirst (above ++ [cs]) below? lines)
    (hcs : ¬ Faulty (above ++ cs :: lines) above.length)
    (herror : ∀ number e, rulesFrom (number + 1) below? lines = .error e →
      rulesFrom number left? (cs :: lines) = .error e) : FailsFirst above left? (cs :: lines) := by
  obtain ⟨i, hi, hfirst, hreads⟩ := h
  rw [List.append_assoc, List.singleton_append] at hfirst hi
  refine ⟨i + 1, length_append_singleton_add i ▸ hi, ?_, fun number => ?_⟩
  · intro j hj
    cases j with
    | zero => exact hcs
    | succ j => exact length_append_singleton_add j ▸ hfirst j (Nat.lt_of_succ_lt_succ hj)
  · obtain ⟨reason, hread⟩ := hreads (number + 1)
    rw [Nat.add_assoc, Nat.add_comm 1 i] at hread
    exact ⟨reason, herror number _ hread⟩

/-- **Lines give rules, or the first fault decides the error.** -/
theorem describes_or_failsFirst (habove : Knows left? above) :
    (∃ rules, Describes left? lines rules ∧ Faultless above lines) ∨
      FailsFirst above left? lines := by
  induction lines generalizing above left? with
  | nil =>
    refine Or.inl ⟨[], .nil left?, fun i ⟨cs, hcs, _⟩ => ?_⟩
    rw [List.append_nil, List.getElem?_eq_none (Nat.le_add_right ..)] at hcs
    exact nomatch hcs
  | cons cs lines ih =>
    by_cases hblank : Blank cs
    · have hcs : ¬ Faulty (above ++ cs :: lines) above.length := fun h =>
        (faulty_append_iff.mp h).1 hblank
      have hrule : ¬ ∃ rule, Line.IsRule cs rule := by
        rintro ⟨rule, hrule⟩
        exact nomatch (Line.read_of_blank hblank).symm.trans (Line.read_of_isRule hrule)
      rcases ih (habove.append hrule) with ⟨rules, h, hnone⟩ | h
      · exact Or.inl ⟨rules, .blank hblank h, hnone.cons hcs⟩
      · exact Or.inr (h.cons hcs fun number e he => (rulesFrom_blank hblank).trans he)
    by_cases hrule : ∃ rule, Line.IsRule cs rule
    · have hcs : ¬ Faulty (above ++ cs :: lines) above.length := fun h =>
        (faulty_append_iff.mp h).2.1 hrule
      obtain ⟨rule, hrule⟩ := hrule
      rcases ih (knows_append_rule hrule) with ⟨rules, h, hnone⟩ | h
      · exact Or.inl ⟨rule :: rules, .rule hrule h, hnone.cons hcs⟩
      · refine Or.inr (h.cons hcs fun number e he => ?_)
        rw [rulesFrom_rule hrule, he]
        rfl
    by_cases hcontinuation : (∃ alternatives, Line.IsContinuation cs alternatives) ∧ left?.isSome
    · obtain ⟨⟨alternatives, halternatives⟩, hleft⟩ := hcontinuation
      have hcs : ¬ Faulty (above ++ cs :: lines) above.length := fun h =>
        (faulty_append_iff.mp h).2.2 ⟨⟨alternatives, halternatives⟩, habove.mp hleft⟩
      obtain ⟨left, rfl⟩ := Option.isSome_iff_exists.mp hleft
      rcases ih (habove.append hrule) with ⟨rules, h, hnone⟩ | h
      · exact Or.inl
          ⟨⟨left, alternatives⟩ :: rules, .continuation halternatives h, hnone.cons hcs⟩
      · refine Or.inr (h.cons hcs fun number e he => ?_)
        rw [rulesFrom_continuation halternatives, he]
        rfl
    · refine Or.inr ⟨0, faulty_append_iff.mpr ⟨hblank, hrule, fun h => ?_⟩, fun j hj => ?_,
        fun number => exists_rulesFrom_eq_error hblank hrule fun h => ?_⟩
      · exact hcontinuation ⟨h.1, habove.mpr h.2⟩
      · exact absurd hj (Nat.not_lt_zero j)
      · exact Option.not_isSome_iff_eq_none.mp fun hleft => hcontinuation ⟨h, hleft⟩

/-- **A text gives rules, or its first faulty line is reported.** -/
theorem readRules_cases (text : String) : (∃ rules, Describes none (Text.lines text.toList) rules ∧
      (∀ i, ¬ Faulty (Text.lines text.toList) i) ∧ readRules text = .ok rules) ∨
    ∃ i reason, Faulty (Text.lines text.toList) i ∧
      (∀ j < i, ¬ Faulty (Text.lines text.toList) j) ∧
        readRules text = .error (.malformed (i + 1) reason) := by
  have habove : Knows none [] := ⟨nofun, nofun⟩
  rw [readRules]
  generalize Text.lines text.toList = lines
  rcases describes_or_failsFirst habove with ⟨rules, h, hnone⟩ | ⟨i, hi, hfirst, hreads⟩
  · refine Or.inl ⟨rules, h, fun i => ?_, h.rulesFrom_eq 1⟩
    have hi := hnone i
    rwa [List.nil_append, List.length_nil, Nat.zero_add] at hi
  · obtain ⟨reason, hread⟩ := hreads 1
    simp only [List.nil_append, List.length_nil, Nat.zero_add] at hi hfirst
    rw [Nat.add_comm 1 i] at hread
    exact Or.inr ⟨i, reason, hi, hfirst, hread⟩

end GrammarTables
