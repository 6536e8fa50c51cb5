import GrammarTables.Proofs.Grammar.Ordinals
import GrammarTables.Proofs.Text.Align
import GrammarTables.Report.Production

/-!
# Proofs/Grammar/Printing — a printed grammar is loaded as the grammar it was

Every non-terminal is printed as a rule, on one line or with a line for each alternative.  Two
halves.

* **Lines** (`lines_print`).  Only spaces separate what is printed, so the lines of the printed text
  are those of the rules, and a name that was read once brings neither an arrow nor a bar with it.
* **Rules** (`Loads.spelling_eq_of_print`).  The lines give each left side the alternatives that it
  has, in the order of the left sides, so the spelling comes back.
-/

namespace GrammarTables

variable {c : Char} {cs left right body : List Char} {name : String} {names : List String}
  {alternatives : Alternatives} {lines : List (List Char)} {left? : Option String}
  {rules : List Rule} {g : Grammar} {text : String}

/-! ## Names that were read -/

/-- What the loader reads as one name. -/
structure IsName (name : String) : Prop where
  ne_nil : name.toList ≠ []
  not_blank : ∀ c ∈ name.toList, ¬ Text.isBlank c
  not_hasArrow : ¬ HasArrow name.toList

/-- A name of an alternative. -/
structure IsRightName (name : String) : Prop extends IsName name where
  not_bar : '|' ∉ name.toList

/-- **A stretch is part of the text, without the characters that it is cut at.** -/
theorem Text.pieces_cases (p : Char → Bool) (cs : List Char) : ∃ first rest,
    pieces p cs = first :: rest ∧ first <+: cs ∧ (∀ c ∈ first, ¬ p c) ∧
      ∀ piece ∈ rest, piece <:+: cs ∧ ∀ c ∈ piece, ¬ p c := by
  induction cs with
  | nil => exact ⟨[], [], rfl, List.prefix_rfl, by simp, by simp⟩
  | cons c cs ih =>
    obtain ⟨first, rest, hpieces, hhead, hfirst, hrest⟩ := ih
    rw [pieces]
    split
    · refine ⟨[], pieces p cs, rfl, List.nil_prefix, by simp, fun piece hpiece => ?_⟩
      rw [hpieces] at hpiece
      rcases List.mem_cons.mp hpiece with rfl | hpiece
      · exact ⟨hhead.isInfix.trans (List.suffix_cons c cs).isInfix, hfirst⟩
      · exact ⟨(hrest piece hpiece).1.trans (List.suffix_cons c cs).isInfix, (hrest piece hpiece).2⟩
    · next hc =>
      refine ⟨c :: first, rest, by rw [hpieces]; rfl, List.cons_prefix_cons.mpr ⟨rfl, hhead⟩,
        List.forall_mem_cons.mpr ⟨hc, hfirst⟩, fun piece hpiece => ?_⟩
      exact ⟨(hrest piece hpiece).1.trans (List.suffix_cons c cs).isInfix, (hrest piece hpiece).2⟩

/-- A piece has no separator in it and stands in the text as it is, so what the text does not
contain the piece does not either. -/
theorem Text.of_mem_pieces {p : Char → Bool} {piece : List Char} (h : piece ∈ pieces p cs) :
    piece <:+: cs ∧ ∀ c ∈ piece, ¬ p c := by
  obtain ⟨first, rest, hpieces, hhead, hfirst, hrest⟩ := pieces_cases p cs
  rw [hpieces] at h
  rcases List.mem_cons.mp h with rfl | h
  · exact ⟨hhead.isInfix, hfirst⟩
  · exact hrest piece h

theorem HasArrow.of_infix (h : HasArrow cs) (hwithin : cs <:+: body) : HasArrow body :=
  List.IsInfix.trans h hwithin

/-- **The alternatives of a text without an arrow have names of alternatives.** -/
theorem isRightName_of_mem_alternativesOf (hbody : ¬ HasArrow body)
    (hnames : names ∈ alternativesOf body) (hname : name ∈ names) : IsRightName name := by
  rw [← readAlternatives_eq, readAlternatives, List.mem_map] at hnames
  obtain ⟨piece, hpiece, rfl⟩ := hnames
  obtain ⟨word, hword, rfl⟩ := List.mem_map.mp hname
  obtain ⟨hword, hne⟩ := List.mem_filter.mp hword
  obtain ⟨hpiece, hbar⟩ := Text.of_mem_pieces hpiece
  obtain ⟨hword, hblank⟩ := Text.of_mem_pieces hword
  refine ⟨⟨?_, ?_, ?_⟩, ?_⟩ <;> rw [String.toList_ofList]
  · simpa using hne
  · exact hblank
  · exact fun harrow => hbody (harrow.of_infix (hword.trans hpiece))
  · exact fun hmem => hbar '|' (hword.subset hmem) rfl

/-- The name on the left of a rule that has been read can be written there again. -/
theorem Line.IsRule.isName {rule : Rule} (h : Line.IsRule cs rule) : IsName rule.left := by
  obtain ⟨pre, left, post, body, -, hne, hleft, -, -, harrow, -⟩ := h
  refine ⟨?_, ?_, ?_⟩ <;> rw [String.toList_ofList]
  · exact hne
  · exact hleft
  · exact fun h => harrow (h.of_infix ⟨pre, post, rfl⟩)

/-- So can the names on the right, where a bar would end an alternative. -/
theorem Line.IsRule.isRightName {rule : Rule} (h : Line.IsRule cs rule)
    (hnames : names ∈ rule.alternatives) (hname : name ∈ names) : IsRightName name := by
  cases h with
  | intro pre left post body _ _ _ _ _ _ hbody =>
    exact isRightName_of_mem_alternativesOf hbody hnames hname

theorem Line.IsContinuation.isRightName (h : Line.IsContinuation cs alternatives)
    (hnames : names ∈ alternatives) (hname : name ∈ names) : IsRightName name := by
  obtain ⟨pre, body, -, harrow⟩ := h
  refine isRightName_of_mem_alternativesOf (fun h => harrow (h.of_infix ?_)) hnames hname
  exact ⟨pre ++ ['|'], [], by simp⟩

/-- **What a rule of a text is made of.** -/
theorem Describes.isName (h : Describes left? lines rules) (hleft : ∀ left ∈ left?, IsName left) :
    ∀ rule ∈ rules, IsName rule.left ∧
      ∀ names ∈ rule.alternatives, ∀ name ∈ names, IsRightName name := by
  induction h with
  | nil => exact fun _ h => absurd h List.not_mem_nil
  | blank _ _ ih => exact ih hleft
  | rule hcs _ ih =>
    refine List.forall_mem_cons.mpr ⟨⟨hcs.isName, fun _ hnames _ => hcs.isRightName hnames⟩,
      ih fun left h => ?_⟩
    exact Option.mem_some_iff.mp h ▸ hcs.isName
  | continuation hcs _ ih =>
    exact List.forall_mem_cons.mpr
      ⟨⟨hleft _ rfl, fun _ hnames _ => hcs.isRightName hnames⟩, ih hleft⟩

/-! ## Writing an alternative -/

theorem blank_space : Blank [' '] := by
  simp [Blank, show Text.isBlank ' ' from by decide]

/-- A character that is in no arrow keeps its two sides apart. -/
theorem hasArrow_append_cons (hdash : c ≠ '-') (hangle : c ≠ '>') :
    HasArrow (left ++ c :: right) ↔ HasArrow left ∨ HasArrow right := by
  induction left with
  | nil =>
    rw [List.nil_append, hasArrow_cons]
    simp [hdash, HasArrow]
  | cons d left ih =>
    rw [List.cons_append, hasArrow_cons, ih, hasArrow_cons, or_assoc]
    cases left with
    | nil => simp [hangle]
    | cons => rfl

/-- An alternative as it is written. -/
def writeNames (names : List String) : List Char :=
  [' '].intercalate (names.map String.toList)

theorem writeNames_cons_cons {first second : String} : writeNames (first :: second :: names) =
    first.toList ++ ' ' :: writeNames (second :: names) := by
  simp [writeNames]

section WriteNames

variable (hnames : ∀ name ∈ names, IsRightName name)

include hnames

/-- Names hold no arrow and blanks stand between them, so none comes about. -/
theorem not_hasArrow_writeNames : ¬ HasArrow (writeNames names) := by
  induction names with
  | nil => simp [writeNames, HasArrow]
  | cons first names ih =>
    obtain ⟨hfirst, hnames⟩ := List.forall_mem_cons.mp hnames
    cases names with
    | nil => simpa [writeNames] using hfirst.not_hasArrow
    | cons second names =>
      rw [writeNames_cons_cons, hasArrow_append_cons (by decide) (by decide), not_or]
      exact ⟨hfirst.not_hasArrow, ih hnames⟩

theorem not_bar_writeNames : '|' ∉ writeNames names := by
  induction names with
  | nil => simp [writeNames]
  | cons first names ih =>
    obtain ⟨hfirst, hnames⟩ := List.forall_mem_cons.mp hnames
    cases names with
    | nil => simpa [writeNames] using hfirst.not_bar
    | cons second names =>
      rw [writeNames_cons_cons, List.mem_append, List.mem_cons, not_or, not_or]
      exact ⟨hfirst.not_bar, by decide, ih hnames⟩

/-- **Names are read back from the words** they are written as. -/
theorem words_writeNames : Text.words (writeNames names) = names.map String.toList := by
  induction names with
  | nil => rfl
  | cons first names ih =>
    obtain ⟨hfirst, hnames⟩ := List.forall_mem_cons.mp hnames
    have hword := Text.words_of_not_blank hfirst.ne_nil hfirst.not_blank
    cases names with
    | nil => simpa [writeNames] using hword
    | cons second names =>
      rw [writeNames_cons_cons, Text.words_append_cons _ _ (by decide), hword, ih hnames]
      rfl

/-- **An alternative that is written is read as it was.** -/
theorem alternativesOf_writeNames : alternativesOf (' ' :: writeNames names) = [names] := by
  have hbar : '|' ∉ ' ' :: writeNames names := by
    rw [List.mem_cons, not_or]
    exact ⟨by decide, not_bar_writeNames hnames⟩
  have hwords : Text.words ([' '] ++ writeNames names) = names.map String.toList := by
    rw [Text.words_blank_append _ blank_space, words_writeNames hnames]
  rw [← readAlternatives_eq, readAlternatives, Text.pieces_eq_splitOnP, ← List.splitOn_eq_splitOnP,
    List.splitOn_eq_singleton hbar, List.map_singleton]
  rw [List.singleton_append] at hwords
  rw [hwords, List.map_map]
  simp

end WriteNames

/-- Further alternatives on the same line. -/
def writeRest : Alternatives → List Char
  | [] => []
  | right :: rest => ' ' :: '|' :: ' ' :: (writeNames right ++ writeRest rest)

/-- Each further alternative is written behind a bar, with blanks on both sides. -/
theorem writeRest_eq_flatMap (rest : Alternatives) :
    writeRest rest = rest.flatMap fun right => ' ' :: '|' :: ' ' :: writeNames right := by
  induction rest with
  | nil => rfl
  | cons right rest ih =>
    rw [writeRest, ih]
    rfl

section WriteRest

variable {rest : Alternatives} (hrest : ∀ right ∈ rest, ∀ name ∈ right, IsRightName name)

include hrest

/-- **Alternatives are read back from one line**, those that it begins with and those behind
bars. -/
theorem alternativesOf_append_writeRest :
    alternativesOf (body ++ writeRest rest) = alternativesOf body ++ rest := by
  induction rest generalizing body with
  | nil => simp [writeRest]
  | cons right rest ih =>
    obtain ⟨hright, hrest⟩ := List.forall_mem_cons.mp hrest
    have hcut : body ++ writeRest (right :: rest) =
        (body ++ [' ']) ++ '|' :: ((' ' :: writeNames right) ++ writeRest rest) := by
      simp [writeRest]
    rw [hcut, alternativesOf_append_bar, alternativesOf_append_blank body blank_space, ih hrest,
      alternativesOf_writeNames hright, List.singleton_append]

theorem not_hasArrow_append_writeRest (hbody : ¬ HasArrow body) :
    ¬ HasArrow (body ++ writeRest rest) := by
  induction rest generalizing body with
  | nil => simpa [writeRest] using hbody
  | cons right rest ih =>
    obtain ⟨hright, hrest⟩ := List.forall_mem_cons.mp hrest
    rw [writeRest, hasArrow_append_cons (by decide) (by decide), not_or, hasArrow_cons,
      hasArrow_cons]
    exact ⟨hbody, by simpa using ih hrest (not_hasArrow_writeNames hright)⟩

end WriteRest

/-! ## Writing a rule -/

/-- How the rules of a left side are laid out. -/
structure Layout where
  /-- The least width of the left side. -/
  width : Nat
  /-- Whether each alternative stands on a line of its own. -/
  multiline : Bool

/-- A left side, and what stands to the right of the arrow. -/
def writeRule (width : Nat) (left : String) (right : List Char) : List Char :=
  (List.replicate (width - left.length) ' ' ++ left.toList ++ [' ']) ++ '-' :: '>' :: right

/-- An alternative on a line of its own, with the bar under the arrow's head. -/
def writeContinuation (width : Nat) (names : List String) : List Char :=
  List.replicate (width + 2) ' ' ++ '|' :: ' ' :: writeNames names

/-- The lines of a left side. -/
def writeLines (layout : Layout) (left : String) : Alternatives → List (List Char)
  | [] => [[]]
  | right :: rest =>
    if layout.multiline then
      writeRule layout.width left (' ' :: writeNames right) ::
        rest.map (writeContinuation layout.width)
    else
      [writeRule layout.width left ((' ' :: writeNames right) ++ writeRest rest)]

/-- The rules that these lines are read as. -/
def writtenRules (layout : Layout) (left : String) (alternatives : Alternatives) : List Rule :=
  if layout.multiline then alternatives.map fun right => ⟨left, [right]⟩
  else [⟨left, alternatives⟩]

theorem blank_replicate (n : Nat) : Blank (List.replicate n ' ') := by
  intro c hc
  rw [List.eq_of_mem_replicate hc]
  decide

/-- Spaces in front bring no arrow. -/
theorem hasArrow_replicate_append (n : Nat) :
    HasArrow (List.replicate n ' ' ++ cs) ↔ HasArrow cs := by
  induction n with
  | zero => rfl
  | succ n ih =>
    rw [List.replicate_succ, List.cons_append, hasArrow_cons, ih]
    simp

/-- **A rule that is written is a rule.** -/
theorem isRule_writeRule (width : Nat) (hname : IsName name) (hreserved : name ∉ reservedNames)
    (hright : ¬ HasArrow right) :
    Line.IsRule (writeRule width name right) ⟨name, alternativesOf right⟩ := by
  have harrow : ¬ HasArrow (List.replicate (width - name.length) ' ' ++ name.toList ++ [' ']) := by
    rw [List.append_assoc, hasArrow_replicate_append, hasArrow_append_cons (by decide) (by decide)]
    simpa [HasArrow] using hname.not_hasArrow
  have hrule := Line.IsRule.intro _ name.toList [' '] right (blank_replicate (width - name.length))
    hname.ne_nil hname.not_blank (by rwa [String.ofList_toList]) blank_space harrow hright
  rwa [String.ofList_toList] at hrule

/-- An alternative on a line of its own is a continuation. -/
theorem isContinuation_writeContinuation (width : Nat) (hnames : ∀ name ∈ names, IsRightName name) :
    Line.IsContinuation (writeContinuation width names) [names] := by
  have harrow : ¬ HasArrow (writeContinuation width names) := by
    rw [writeContinuation, hasArrow_replicate_append, hasArrow_cons, hasArrow_cons]
    simpa using not_hasArrow_writeNames hnames
  have hcontinuation := Line.IsContinuation.intro _ _ (blank_replicate (width + 2)) harrow
  rwa [alternativesOf_writeNames hnames] at hcontinuation

/-- Alternatives on lines of their own. -/
theorem describes_continuations (width : Nat) {rest : Alternatives}
    (hrest : ∀ right ∈ rest, ∀ name ∈ right, IsRightName name)
    (h : Describes (some name) lines rules) :
    Describes (some name) (rest.map (writeContinuation width) ++ lines)
      (rest.map (fun right => ⟨name, [right]⟩) ++ rules) := by
  induction rest with
  | nil => exact h
  | cons right rest ih =>
    obtain ⟨hright, hrest⟩ := List.forall_mem_cons.mp hrest
    exact .continuation (isContinuation_writeContinuation width hright) (ih hrest)

/-- **The lines of a left side give it its alternatives.** -/
theorem describes_writeLines (layout : Layout) (hname : IsName name)
    (hreserved : name ∉ reservedNames) (hne : alternatives ≠ [])
    (hnames : ∀ right ∈ alternatives, ∀ name ∈ right, IsRightName name)
    (h : Describes (some name) lines rules) :
    Describes left? (writeLines layout name alternatives ++ lines)
      (writtenRules layout name alternatives ++ rules) := by
  obtain ⟨right, rest, rfl⟩ := List.exists_cons_of_ne_nil hne
  obtain ⟨hright, hrest⟩ := List.forall_mem_cons.mp hnames
  have hfirst : ¬ HasArrow (' ' :: writeNames right) := by
    rw [hasArrow_cons]
    simpa using not_hasArrow_writeNames hright
  rw [writeLines, writtenRules]
  split
  · have hrule := isRule_writeRule layout.width hname hreserved hfirst
    rw [alternativesOf_writeNames hright] at hrule
    exact .rule hrule (describes_continuations _ hrest h)
  · have hbody := not_hasArrow_append_writeRest hrest hfirst
    have hrule := isRule_writeRule layout.width hname hreserved hbody
    rw [alternativesOf_append_writeRest hrest, alternativesOf_writeNames hright] at hrule
    exact .rule hrule h

/-! ## The rules of a printed grammar -/

/-- The lines of left sides with their alternatives. -/
def writeAll (layout : String → Layout) (entries : List (String × Alternatives)) :
    List (List Char) :=
  entries.flatMap fun entry => writeLines (layout entry.1) entry.1 entry.2

/-- The rules that these lines are read as. -/
def writtenAll (layout : String → Layout) (entries : List (String × Alternatives)) : List Rule :=
  entries.flatMap fun entry => writtenRules (layout entry.1) entry.1 entry.2

/-- A left side that can be written. -/
structure Writable (entry : String × Alternatives) : Prop where
  isName : IsName entry.1
  not_reserved : entry.1 ∉ reservedNames
  ne_nil : entry.2 ≠ []
  isRightName : ∀ right ∈ entry.2, ∀ name ∈ right, IsRightName name

variable {layout : String → Layout} {entries : List (String × Alternatives)}
  {entry : String × Alternatives}

/-- **What is written is read as it was.** -/
theorem describes_writeAll (layout : String → Layout) (h : ∀ entry ∈ entries, Writable entry) :
    Describes left? (writeAll layout entries) (writtenAll layout entries) := by
  induction entries generalizing left? with
  | nil => exact .nil left?
  | cons entry entries ih =>
    obtain ⟨hentry, hentries⟩ := List.forall_mem_cons.mp h
    exact describes_writeLines _ hentry.isName hentry.not_reserved hentry.ne_nil hentry.isRightName
      (ih hentries)

/-- On lines of its own or not, an alternative is written for its left side. -/
theorem left_eq_of_mem_writtenRules {layout : Layout} {rule : Rule}
    (h : rule ∈ writtenRules layout name alternatives) : rule.left = name := by
  rw [writtenRules] at h
  split at h
  · obtain ⟨right, -, rfl⟩ := List.mem_map.mp h
    rfl
  · rw [List.mem_singleton.mp h]

/-- Both layouts write all alternatives, in their order. -/
theorem flatMap_alternatives_writtenRules (layout : Layout) :
    (writtenRules layout name alternatives).flatMap Rule.alternatives = alternatives := by
  rw [writtenRules]
  split
  · rw [List.flatMap_map]
    exact List.flatMap_singleton' alternatives
  · exact List.flatMap_singleton _ _

/-- **A left side is given the alternatives that are written for it.** -/
theorem alternativesIn_writtenAll (hnodup : (entries.map Prod.fst).Nodup)
    (hentry : entry ∈ entries) : alternativesIn (writtenAll layout entries) entry.1 = entry.2 := by
  have hgroups : ∀ other ∈ entries, ∀ rule ∈ writtenRules (layout other.1) other.1 other.2,
      rule.left = other.1 := fun _ _ _ hrule => left_eq_of_mem_writtenRules hrule
  rw [writtenAll, alternativesIn_flatMap hgroups, filter_key_eq_singleton hnodup hentry,
    List.flatMap_singleton, flatMap_alternatives_writtenRules]

/-- Left sides are collected without repetition, so lines for one left side give it once. -/
theorem eraseDups_eq_singleton {α : Type} [DecidableEq α] {as : List α} {a : α} (hne : as ≠ [])
    (h : ∀ b ∈ as, b = a) : as.eraseDups = [a] := by
  obtain ⟨b, bs, rfl⟩ := List.exists_cons_of_ne_nil hne
  obtain ⟨rfl, hbs⟩ := List.forall_mem_cons.mp h
  have hnone : (bs.filter fun c => !c == b) = [] :=
    List.filter_eq_nil_iff.mpr fun c hc => by simp [hbs c hc]
  rw [List.eraseDups_cons, hnone, List.eraseDups_nil]

/-- **The left sides keep their order.** -/
theorem eraseDups_writtenAll (h : ∀ entry ∈ entries, Writable entry)
    (hnodup : (entries.map Prod.fst).Nodup) :
    ((writtenAll layout entries).map Rule.left).eraseDups = entries.map Prod.fst := by
  induction entries with
  | nil => rfl
  | cons entry entries ih =>
    obtain ⟨hentry, hentries⟩ := List.forall_mem_cons.mp h
    obtain ⟨hfirst, hnodup⟩ := List.nodup_cons.mp hnodup
    have hlefts : ∀ left ∈ (writtenRules (layout entry.1) entry.1 entry.2).map Rule.left,
        left = entry.1 := by
      intro left hleft
      obtain ⟨rule, hrule, rfl⟩ := List.mem_map.mp hleft
      exact left_eq_of_mem_writtenRules hrule
    have hne : (writtenRules (layout entry.1) entry.1 entry.2).map Rule.left ≠ [] := by
      rw [writtenRules]
      split
      · simpa using hentry.ne_nil
      · simp
    have hkeep : ((writtenAll layout entries).map Rule.left).removeAll
        ((writtenRules (layout entry.1) entry.1 entry.2).map Rule.left) =
          (writtenAll layout entries).map Rule.left := by
      refine List.filter_eq_self.mpr fun left hleft => ?_
      obtain ⟨rule, hrule, rfl⟩ := List.mem_map.mp hleft
      obtain ⟨other, hother, hrule⟩ := List.mem_flatMap.mp hrule
      have hnot : other.1 ∉ (writtenRules (layout entry.1) entry.1 entry.2).map Rule.left :=
        fun hmem => hfirst (hlefts other.1 hmem ▸ List.mem_map_of_mem hother)
      rw [left_eq_of_mem_writtenRules hrule]
      simpa using hnot
    rw [writtenAll, List.flatMap_cons, List.map_append, List.eraseDups_append, ← writtenAll, hkeep,
      ih hentries hnodup, eraseDups_eq_singleton hne hlefts]
    rfl

/-! ## The lines of a printed grammar -/

/-- The only white space is the space. -/
def Spaced (cs : List Char) : Prop :=
  ∀ c ∈ cs, Text.isBlank c → c = ' '

theorem spaced_append : Spaced (left ++ right) ↔ Spaced left ∧ Spaced right :=
  List.forall_mem_append

theorem spaced_cons : Spaced (c :: cs) ↔ (Text.isBlank c → c = ' ') ∧ Spaced cs :=
  List.forall_mem_cons

theorem spaced_replicate (n : Nat) : Spaced (List.replicate n ' ') :=
  fun _ hc _ => List.eq_of_mem_replicate hc

theorem IsName.spaced (h : IsName name) : Spaced name.toList :=
  fun c hc hblank => absurd hblank (h.not_blank c hc)

/-- The only white space written is a blank, so no written line can be cut in two when it is
read. -/
theorem spaced_writeNames (hnames : ∀ name ∈ names, IsRightName name) :
    Spaced (writeNames names) := by
  induction names with
  | nil => simp [writeNames, Spaced]
  | cons first names ih =>
    obtain ⟨hfirst, hnames⟩ := List.forall_mem_cons.mp hnames
    cases names with
    | nil => simpa [writeNames] using hfirst.spaced
    | cons second names =>
      rw [writeNames_cons_cons, spaced_append, spaced_cons]
      exact ⟨hfirst.spaced, fun _ => rfl, ih hnames⟩

theorem spaced_writeRest {rest : Alternatives}
    (hrest : ∀ right ∈ rest, ∀ name ∈ right, IsRightName name) : Spaced (writeRest rest) := by
  induction rest with
  | nil => simp [writeRest, Spaced]
  | cons right rest ih =>
    obtain ⟨hright, hrest⟩ := List.forall_mem_cons.mp hrest
    rw [writeRest, spaced_cons, spaced_cons, spaced_cons, spaced_append]
    exact ⟨fun _ => rfl, fun h => absurd h (by decide), fun _ => rfl, spaced_writeNames hright,
      ih hrest⟩

theorem spaced_writeContinuation {width : Nat} (hnames : ∀ name ∈ names, IsRightName name) :
    Spaced (writeContinuation width names) := by
  rw [writeContinuation, spaced_append, spaced_cons, spaced_cons]
  exact ⟨spaced_replicate _, fun h => absurd h (by decide), fun _ => rfl, spaced_writeNames hnames⟩

/-- This is said piece by piece, up to the whole line of a rule. -/
theorem spaced_writeRule {width : Nat} (hname : IsName name) (hright : Spaced right) :
    Spaced (writeRule width name (' ' :: right)) := by
  simp only [writeRule, spaced_append, spaced_cons]
  exact ⟨⟨⟨spaced_replicate _, hname.spaced⟩, fun _ => trivial, by simp [Spaced]⟩,
    fun h => absurd h (by decide), fun h => absurd h (by decide), fun _ => trivial, hright⟩

/-- **A line that is written is not empty, and its only white space is the space.** -/
theorem of_mem_writeLines {layout : Layout} (hname : IsName name) (hne : alternatives ≠ [])
    (hnames : ∀ right ∈ alternatives, ∀ name ∈ right, IsRightName name)
    (hcs : cs ∈ writeLines layout name alternatives) : Spaced cs ∧ cs ≠ [] := by
  obtain ⟨right, rest, rfl⟩ := List.exists_cons_of_ne_nil hne
  obtain ⟨hright, hrest⟩ := List.forall_mem_cons.mp hnames
  rw [writeLines] at hcs
  split at hcs
  · rcases List.mem_cons.mp hcs with rfl | hcs
    · exact ⟨spaced_writeRule hname (spaced_writeNames hright), by simp [writeRule]⟩
    · obtain ⟨other, hother, rfl⟩ := List.mem_map.mp hcs
      exact ⟨spaced_writeContinuation (hrest other hother), by simp [writeContinuation]⟩
  · rw [List.mem_singleton.mp hcs, List.cons_append]
    have hbody := spaced_append.mpr ⟨spaced_writeNames hright, spaced_writeRest hrest⟩
    exact ⟨spaced_writeRule hname hbody, by simp [writeRule]⟩

/-- A text of lines joined by line ends is cut into the stretches of its parts. -/
theorem splitOn_intercalate_singleton {parts : List (List Char)} (hne : parts ≠ []) :
    ([c].intercalate parts).splitOn c = parts.flatMap fun part => part.splitOn c := by
  induction parts with
  | nil => exact absurd rfl hne
  | cons part parts ih =>
    cases parts with
    | nil => simp
    | cons next parts =>
      rw [List.intercalate_cons_cons, List.append_assoc, List.singleton_append,
        List.splitOn_append_cons_self, ih (List.cons_ne_nil _ _)]
      rfl

theorem Text.dropReturn_eq_self (h : '\r' ∉ cs) : Text.dropReturn cs = cs := by
  induction cs with
  | nil => rfl
  | cons c cs ih =>
    rw [List.mem_cons, not_or] at h
    rw [Text.dropReturn]
    · rw [ih h.2]
    · rintro rfl
      exact fun hnil => h.1 rfl

/-- Lines that are not empty and without returns are lines of a text as they are. -/
theorem Text.linesOf_eq_self (h : ∀ cs ∈ lines, '\r' ∉ cs ∧ cs ≠ []) :
    Text.linesOf lines = lines := by
  induction lines with
  | nil => rfl
  | cons cs lines ih =>
    obtain ⟨⟨hreturn, hne⟩, hlines⟩ := List.forall_mem_cons.mp h
    cases lines with
    | nil => simp [Text.linesOf, hne]
    | cons next lines =>
      rw [Text.linesOf, Text.dropReturn_eq_self hreturn, ih hlines]
      exact List.cons_ne_nil _ _

/-- Lines after the first begin with a line end. -/
theorem intercalate_singleton_cons {part : List Char} {parts : List (List Char)} :
    [c].intercalate (part :: parts) = part ++ parts.flatMap fun part => c :: part := by
  induction parts generalizing part with
  | nil => simp
  | cons next parts ih =>
    rw [List.intercalate_cons_cons, ih, List.flatMap_cons]
    simp

/-- **A printed left side is its lines.** -/
theorem toList_plain (width : Nat) (multiline : Bool) (group : ProductionGroup) :
    (group.plain width multiline).toList = ['\n'].intercalate
      (writeLines ⟨width, multiline⟩ group.left (group.rights.map Prod.snd)) := by
  rw [ProductionGroup.plain]
  split
  · next hnil => rw [hnil]; rfl
  · next ordinal right rest hcons =>
    rw [hcons, List.map_cons, writeLines]
    cases multiline with
    | false =>
      simp [ProductionGroup.plainRest, Text.toList_padLeft, writeRule, writeRest_eq_flatMap,
        writeNames, List.flatMap_map]
    | true =>
      simp [ProductionGroup.plainRest, Text.toList_padLeft, writeRule, writeContinuation,
        writeNames, List.flatMap_map, intercalate_singleton_cons, List.replicate_succ']

theorem writeLines_ne_nil {layout : Layout} : writeLines layout name alternatives ≠ [] := by
  cases alternatives with
  | nil => exact List.cons_ne_nil _ _
  | cons right rest =>
    rw [writeLines]
    split <;> exact List.cons_ne_nil _ _

/-! ## The printed grammar -/

namespace Grammar

/-- A non-terminal with its productions, as they are printed. -/
def group (g : Grammar) (nt : NonTerminal) : ProductionGroup :=
  ⟨nt.name, (g.productions.filter fun p => p.left = nt.index).map fun p =>
    (p.ordinal, g.spell p.right)⟩

/-- The non-terminals in the order of their numbers, each printed in its layout. -/
def print (g : Grammar) (layout : String → Layout) : String :=
  "\n".intercalate (g.nonTerminals.map fun nt =>
    (g.group nt).plain (layout nt.name).width (layout nt.name).multiline)

/-- The productions of a non-terminal are its alternatives, in their order. -/
theorem Built.map_right_filter_left (hg : g.Built) {nt : NonTerminal} (hnt : nt ∈ g.nonTerminals) :
    (g.productions.filter fun p => p.left = nt.index).map Production.right = nt.alternatives := by
  rw [hg.map_filter_left hnt fun _ _ => rfl, NonTerminal.productions, List.map_map]
  exact List.zipIdx_map_fst 0 nt.alternatives

theorem WellFormed.spelling_ne_nil (hg : g.WellFormed) : g.spelling ≠ [] := by
  obtain ⟨name, alternatives, hstart⟩ := isNonTerminal_iff.mp hg.start_nonTerminal
  have hmem : (⟨g.start, name, alternatives⟩ : NonTerminal) ∈ g.nonTerminals :=
    mem_nonTerminalsOf.mpr hstart
  exact List.ne_nil_of_mem (List.mem_map_of_mem hmem)

/-- **The lines of a printed grammar are those of its rules.** -/
theorem Built.lines_print (hg : g.Built) (layout : String → Layout)
    (h : ∀ entry ∈ g.spelling, Writable entry) :
    Text.lines (g.print layout).toList = writeAll layout g.spelling := by
  have hparts : (g.nonTerminals.map fun nt =>
      (g.group nt).plain (layout nt.name).width (layout nt.name).multiline).map String.toList =
        g.spelling.map fun entry =>
          ['\n'].intercalate (writeLines (layout entry.1) entry.1 entry.2) := by
    rw [spelling, List.map_map, List.map_map]
    refine List.map_congr_left fun nt hnt => ?_
    have hrights : (g.group nt).rights.map Prod.snd = nt.alternatives.map g.spell := by
      rw [← hg.map_right_filter_left hnt, group, List.map_map, List.map_map]
      rfl
    simp only [Function.comp_apply]
    rw [toList_plain, hrights]
    rfl
  have hlines : ∀ cs ∈ writeAll layout g.spelling, Spaced cs ∧ cs ≠ [] := by
    intro cs hcs
    obtain ⟨entry, hentry, hcs⟩ := List.mem_flatMap.mp hcs
    have hwritable := h entry hentry
    exact of_mem_writeLines hwritable.isName hwritable.ne_nil hwritable.isRightName hcs
  have hcut : Text.pieces (· == '\n') (g.print layout).toList = writeAll layout g.spelling := by
    rw [Text.pieces_eq_splitOnP, ← List.splitOn_eq_splitOnP, print, String.toList_intercalate,
      hparts]
    change (['\n'].intercalate _).splitOn '\n' = _
    rw [splitOn_intercalate_singleton (by simpa using hg.wellFormed.spelling_ne_nil),
      List.flatMap_map, writeAll]
    refine List.flatMap_congr fun entry hentry =>
      List.splitOn_intercalate _ (fun cs hcs hend => ?_) ?_
    · have hspaced := (hlines cs (List.mem_flatMap.mpr ⟨entry, hentry, hcs⟩)).1
      exact absurd (hspaced '\n' hend (by decide)) (by decide)
    · exact writeLines_ne_nil
  rw [Text.lines, hcut]
  refine Text.linesOf_eq_self fun cs hcs => ⟨fun hreturn => ?_, (hlines cs hcs).2⟩
  exact absurd ((hlines cs hcs).1 '\r' hreturn (by decide)) (by decide)

end Grammar

theorem isRightName_epsilonName : IsRightName Symbol.epsilonName where
  ne_nil := by decide
  not_blank := by
    have hall : Symbol.epsilonName.toList.all (!Text.isBlank ·) := rfl
    simpa using hall
  not_hasArrow := by
    rw [HasArrow]
    decide
  not_bar := by decide

/-- The one name that printing changes is that of the empty string, and its usual spelling can be
read. -/
theorem isRightName_of_mem_printedNames (hnames : ∀ name ∈ names, IsRightName name)
    (h : name ∈ printedNames names) : IsRightName name := by
  rw [printedNames] at h
  split at h
  · rw [List.mem_singleton.mp h]
    exact isRightName_epsilonName
  · obtain ⟨other, hother, rfl⟩ := List.mem_map.mp h
    rw [printedName]
    split
    · exact isRightName_epsilonName
    · exact hnames other hother

/-- **What was loaded can be written.** -/
theorem Loads.writable (h : Loads text rules g) : ∀ entry ∈ g.spelling, Writable entry := by
  intro entry hentry
  rw [h.spelling_eq, List.mem_map] at hentry
  obtain ⟨left, hleft, rfl⟩ := hentry
  obtain ⟨rule, hrule, rfl⟩ := List.mem_map.mp (List.mem_eraseDups.mp hleft)
  have hrules := h.describes.forall_rule nofun
  have hnames := h.describes.isName nofun
  refine ⟨(hnames rule hrule).1, (hrules rule hrule).1, ?_, fun right hright name hname => ?_⟩
  · exact mt List.map_eq_nil_iff.mp (alternativesIn_ne_nil hrule rfl (hrules rule hrule).2)
  · obtain ⟨names, hmem, rfl⟩ := List.mem_map.mp hright
    obtain ⟨other, hother, hmem⟩ := List.mem_flatMap.mp hmem
    exact isRightName_of_mem_printedNames
      ((hnames other (List.mem_of_mem_filter hother)).2 names hmem) hname

namespace Grammar

/-- The start symbol is found by its name. -/
theorem SpelledOut.nameOf_start_eq {g' : Grammar} (hg : g.SpelledOut) (hg' : g'.SpelledOut)
    (h : g'.spelling = g.spelling) : g'.nameOf g'.start = g.nameOf g.start := by
  by_cases hmarked : ∃ entry ∈ g.spelling, Mention entry.2 Symbol.endMarkName
  · obtain ⟨entry, hentry, hmarks⟩ := hmarked
    rw [← hg.start_marked entry hentry hmarks, ← hg'.start_marked entry (h ▸ hentry) hmarks]
  · have hnone : ∀ entry ∈ g.spelling, ¬ Mention entry.2 Symbol.endMarkName :=
      fun entry hentry hmarks => hmarked ⟨entry, hentry, hmarks⟩
    have hfirst := hg'.start_first (h ▸ hnone)
    rw [h, hg.start_first hnone] at hfirst
    exact (Option.some.inj hfirst).symm

/-- Finding a production by its ordinal and spelling it out can be done in either order. -/
theorem map_named_production? (g : Grammar) (ordinal : Nat) :
    (g.production? ordinal).map (Production.named g) =
      (g.productions.map (Production.named g)).find? fun p => p.ordinal = ordinal := by
  rw [List.find?_map]
  rfl

/-- A printed rule that mentions the end mark is one of the start symbol. -/
theorem SpelledOut.left_eq_of_mentions {layout : String → Layout} {rule : Rule} (hg : g.SpelledOut)
    (hrule : rule ∈ writtenAll layout g.spelling) (hmarks : rule.Mentions Symbol.endMarkName) :
    rule.left = g.nameOf g.start := by
  obtain ⟨entry, hentry, hrule⟩ := List.mem_flatMap.mp hrule
  obtain ⟨names, hnames, hname⟩ := hmarks
  have hmem : names ∈ entry.2 := by
    have hmem : names ∈ (writtenRules (layout entry.1) entry.1 entry.2).flatMap Rule.alternatives :=
      List.mem_flatMap.mpr ⟨rule, hrule, hnames⟩
    rwa [flatMap_alternatives_writtenRules] at hmem
  rw [left_eq_of_mem_writtenRules hrule]
  exact hg.start_marked entry hentry ⟨names, hmem, hname⟩

end Grammar

/-- **What is loaded from a printed grammar is spelled as the grammar.** -/
theorem Loads.spelling_eq_of_print {g' : Grammar} {text' : String} {layout : String → Layout}
    (h : Loads text rules g) (h' : Loads text' (writtenAll layout g.spelling) g') :
    g'.spelling = g.spelling := by
  have hnodup := h.built.wellFormed.nodup_map_fst_spelling
  rw [h'.spelling_eq, eraseDups_writtenAll h.writable hnodup, List.map_map]
  conv_rhs => rw [← List.map_id g.spelling]
  refine List.map_congr_left fun entry hentry => Prod.ext rfl ?_
  have hprinted : entry.2.map printedNames = entry.2 := by
    rw [h.spelling_eq, List.mem_map] at hentry
    obtain ⟨left, -, rfl⟩ := hentry
    rw [List.map_map, printedNames_comp_printedNames]
  exact (congrArg _ (alternativesIn_writtenAll hnodup hentry)).trans hprinted

/-- **Printing a loaded grammar and loading the text gives the grammar back**: the same
non-terminals in the same order, the same terminals and start symbol, and under each ordinal the
same production, by names and in any layout. -/
theorem Grammar.ofText_print (h : Grammar.ofText text = .ok g) (layout : String → Layout) :
    ∃ g', Grammar.ofText (g.print layout) = .ok g' ∧
      g'.nonTerminals.map NonTerminal.name = g.nonTerminals.map NonTerminal.name ∧
      (∀ name, (∃ s, g'.isTerminal s ∧ g'.nameOf s = name) ↔
        ∃ s, g.isTerminal s ∧ g.nameOf s = name) ∧
      g'.nameOf g'.start = g.nameOf g.start ∧
      ∀ ordinal, ((g'.production? ordinal).map fun p => (g'.nameOf p.left, g'.spell p.right)) =
        (g.production? ordinal).map fun p => (g.nameOf p.left, g.spell p.right) := by
  obtain ⟨rules, hloads⟩ := exists_loads h
  have hdescribes : Describes none (Text.lines (g.print layout).toList)
      (writtenAll layout g.spelling) := by
    rw [hloads.built.lines_print layout hloads.writable]
    exact describes_writeAll layout hloads.writable
  have hne : writtenAll layout g.spelling ≠ [] := by
    intro hnil
    have hlefts :
        ((writtenAll layout g.spelling).map Rule.left).eraseDups = g.spelling.map Prod.fst :=
      eraseDups_writtenAll hloads.writable hloads.built.wellFormed.nodup_map_fst_spelling
    rw [hnil] at hlefts
    exact hloads.built.wellFormed.spelling_ne_nil (List.map_eq_nil_iff.mp hlefts.symm)
  have honce : ¬ MarkedTwice (writtenAll layout g.spelling) := by
    rintro ⟨rule, hrule, rule', hrule', hmarks, hmarks', hne⟩
    exact hne ((hloads.spelledOut.left_eq_of_mentions hrule hmarks).trans
      (hloads.spelledOut.left_eq_of_mentions hrule' hmarks').symm)
  obtain ⟨g', hg', hloads'⟩ := exists_loads_of_describes hdescribes hne honce
  have hspelling := hloads.spelling_eq_of_print hloads'
  refine ⟨g', hg', ?_, fun name => ?_, ?_, fun ordinal => ?_⟩
  · rw [← map_fst_spelling, hspelling, map_fst_spelling]
  · rw [hloads'.spelledOut.terminal_iff, hloads.spelledOut.terminal_iff, hspelling]
  · exact hloads.spelledOut.nameOf_start_eq hloads'.spelledOut hspelling
  · have hnamed : (g'.production? ordinal).map (Production.named g') =
        (g.production? ordinal).map (Production.named g) := by
      rw [map_named_production?, map_named_production?, hloads'.built.map_named_productions,
        hloads.built.map_named_productions, hspelling]
    have hsides := congrArg (Option.map fun p => (p.left, p.right)) hnamed
    simpa [Option.map_map, Function.comp_def, Production.named] using hsides

/-- What is printed of a grammar of nested pairs, with each alternative on a line of its own, is
loaded. -/
theorem Grammar.ofText_print_nested :
    Grammar.ofText "S -> a S b\n  | lambda" = .ok nested ∧
      ∃ g', Grammar.ofText (nested.print fun _ => ⟨3, true⟩) = .ok g' ∧
        g'.nonTerminals.map NonTerminal.name = nested.nonTerminals.map NonTerminal.name ∧
        (∀ name, (∃ s, g'.isTerminal s ∧ g'.nameOf s = name) ↔
          ∃ s, nested.isTerminal s ∧ nested.nameOf s = name) ∧
        g'.nameOf g'.start = nested.nameOf nested.start ∧
        ∀ ordinal, ((g'.production? ordinal).map fun p => (g'.nameOf p.left, g'.spell p.right)) =
          (nested.production? ordinal).map fun p => (nested.nameOf p.left, nested.spell p.right) :=
  have hload : Grammar.ofText "S -> a S b\n  | lambda" = .ok nested := by rfl
  ⟨hload, Grammar.ofText_print hload _⟩

end GrammarTables
