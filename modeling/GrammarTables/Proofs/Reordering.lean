import GrammarTables.Proofs.Automaton.Renaming
import GrammarTables.Proofs.Predictive.Renaming

/-!
# Proofs/Reordering — the order of the rules of a grammar text does not matter

A rule with the continuations below it is a block.  Texts with the same blocks in different orders
give each left side the same alternatives as long as the blocks of one left side keep their order,
so their grammars are spelled alike (`Loads.spelling_perm`) and are renamings of each other.
**Nothing that is reported of them or parsed with them tells them apart** (`Renames.agrees`), unless
the order has changed the start symbol.
-/

namespace GrammarTables

/-! ## Blocks -/

/-- A rule with the continuations and blank lines below it, up to the next rule. -/
structure RuleBlock where
  first : List Char
  below : List (List Char)
  rule : Rule
  isRule : Line.IsRule first rule
  below_cases : ∀ cs ∈ below, Blank cs ∨ ∃ alternatives, Line.IsContinuation cs alternatives

namespace RuleBlock

/-- The left side of a block. -/
def left (b : RuleBlock) : String :=
  b.rule.left

/-- The lines of a block. -/
def lines (b : RuleBlock) : List (List Char) :=
  b.first :: b.below

/-- The rule that a continuation below `left` adds. -/
def continuation? (left : String) (cs : List Char) : Option Rule :=
  match Line.read cs with
  | .ok (.continuation alternatives) => some ⟨left, alternatives⟩
  | _ => none

/-- The rules that the lines of a block give. -/
def rules (b : RuleBlock) : List Rule :=
  b.rule :: b.below.filterMap (continuation? b.left)

/-- The alternatives that a block gives its left side. -/
def alternatives (b : RuleBlock) : Alternatives :=
  b.rules.flatMap Rule.alternatives

end RuleBlock

/-- The lines that are not blank, without the white space at their ends. -/
def writtenLines (lines : List (List Char)) : List (List Char) :=
  (lines.map Text.trimEnd).filter fun cs => !cs.isEmpty

/-- The second text has the blocks of the first in another order, but those of one left side in the
same order.  Blank lines and the white space at the ends of lines do not count. -/
inductive Reorders (text text' : String) : Prop
  | intro (blocks blocks' : List RuleBlock)
    (hlines : writtenLines (Text.lines text.toList) = writtenLines (blocks.flatMap RuleBlock.lines))
    (hlines' : writtenLines (Text.lines text'.toList) =
      writtenLines (blocks'.flatMap RuleBlock.lines))
    (hperm : blocks'.Perm blocks)
    (horder : ∀ left, (blocks'.filter fun b => b.left = left) =
      blocks.filter fun b => b.left = left)

variable {c : Char} {cs left right post : List Char} {name : String} {rule : Rule}
  {left? : Option String} {g g' : Grammar} {text text' : String}

/-! ## White space at the ends of lines -/

section WhiteSpace

variable {alternatives : Alternatives} {lines : List (List Char)} {rules : List Rule}

/-- White space at the end stands behind every character that is none. -/
theorem exists_of_append_eq_append (hpost : Blank post) (hc : ¬ Text.isBlank c)
    (h : left ++ c :: right = cs ++ post) :
    ∃ rest, right = rest ++ post ∧ cs = left ++ c :: rest := by
  rcases List.append_eq_append_iff.mp h with ⟨front, rfl, hfront⟩ | ⟨back, rfl, hback⟩
  · cases front with
    | nil => exact absurd (hpost c (by rw [← List.nil_append post, ← hfront]; simp)) hc
    | cons d front =>
      obtain ⟨rfl, rfl⟩ := List.cons.inj hfront
      exact ⟨front, rfl, rfl⟩
  · exact absurd (hpost c (by simp [hback])) hc

theorem hasArrow_append_blank (hpost : Blank post) : HasArrow (cs ++ post) ↔ HasArrow cs := by
  refine ⟨fun ⟨front, back, hcut⟩ => ?_, fun h => h.trans (List.prefix_append cs post).isInfix⟩
  have hcut' : (front ++ ['-']) ++ '>' :: back = cs ++ post := by simpa using hcut
  obtain ⟨rest, -, rfl⟩ := exists_of_append_eq_append hpost (by decide) hcut'
  exact ⟨front, rest, by simp⟩

theorem Line.isRule_append_blank (hpost : Blank post) :
    IsRule (cs ++ post) rule ↔ IsRule cs rule := by
  constructor
  · intro h
    generalize hline : cs ++ post = line at h
    obtain ⟨pre, left, gap, body, hpre, hne, hleft, hname, hgap, harrow, hbody⟩ := h
    have hcut : (pre ++ left ++ gap ++ ['-']) ++ '>' :: body = cs ++ post := by simp [hline]
    obtain ⟨rest, rfl, rfl⟩ := exists_of_append_eq_append hpost (by decide) hcut
    have hrule := IsRule.intro pre left gap rest hpre hne hleft hname hgap harrow
      (mt (hasArrow_append_blank hpost).mpr hbody)
    rw [alternativesOf_append_blank rest hpost]
    simpa using hrule
  · rintro ⟨pre, left, gap, body, hpre, hne, hleft, hname, hgap, harrow, hbody⟩
    have hrule := IsRule.intro pre left gap (body ++ post) hpre hne hleft hname hgap harrow
      (mt (hasArrow_append_blank hpost).mp hbody)
    rw [alternativesOf_append_blank body hpost] at hrule
    simpa using hrule

theorem Line.isContinuation_append_blank (hpost : Blank post) :
    IsContinuation (cs ++ post) alternatives ↔ IsContinuation cs alternatives := by
  constructor
  · intro h
    generalize hline : cs ++ post = line at h
    obtain ⟨pre, body, hpre, harrow⟩ := h
    obtain ⟨rest, rfl, rfl⟩ := exists_of_append_eq_append hpost (by decide) hline.symm
    rw [← hline, hasArrow_append_blank hpost] at harrow
    rw [alternativesOf_append_blank rest hpost]
    exact .intro pre rest hpre harrow
  · rintro ⟨pre, body, hpre, harrow⟩
    have hcontinuation := IsContinuation.intro pre (body ++ post) hpre (by
      rwa [← List.cons_append, ← List.append_assoc, hasArrow_append_blank hpost])
    rw [alternativesOf_append_blank body hpost] at hcontinuation
    simpa using hcontinuation

/-- Trimming a line changes nothing that white space at the end does not change. -/
theorem holds_trimEnd_iff (holds : List Char → Prop) (cs : List Char)
    (hblank : ∀ {post : List Char}, Blank post → ∀ cs, holds (cs ++ post) ↔ holds cs) :
    holds (Text.trimEnd cs) ↔ holds cs := by
  obtain ⟨post, hcut, hpost⟩ := Text.exists_trimEnd cs
  conv_rhs => rw [hcut, hblank hpost]

theorem blank_trimEnd_iff : Blank (Text.trimEnd cs) ↔ Blank cs :=
  holds_trimEnd_iff Blank cs fun hpost _ => List.forall_mem_append.trans (and_iff_left hpost)

theorem isRule_trimEnd_iff : Line.IsRule (Text.trimEnd cs) rule ↔ Line.IsRule cs rule :=
  holds_trimEnd_iff (Line.IsRule · rule) cs fun hpost _ => Line.isRule_append_blank hpost

theorem isContinuation_trimEnd_iff :
    Line.IsContinuation (Text.trimEnd cs) alternatives ↔ Line.IsContinuation cs alternatives :=
  holds_trimEnd_iff (Line.IsContinuation · alternatives) cs fun hpost _ =>
    Line.isContinuation_append_blank hpost

theorem describes_cons_of_blank (hcs : Blank cs) :
    Describes left? (cs :: lines) rules ↔ Describes left? lines rules := by
  refine ⟨fun h => ?_, .blank hcs⟩
  have hread := Line.read_of_blank hcs
  cases h with
  | blank _ h => exact h
  | rule hrule _ => exact nomatch hread.symm.trans (Line.read_of_isRule hrule)
  | continuation hcontinuation _ =>
    exact nomatch hread.symm.trans (Line.read_of_isContinuation hcontinuation)

/-- Lines are read by their first line, and then by the others. -/
theorem Describes.cons_of {cs' : List Char} {lines' : List (List Char)}
    (hblank : Blank cs → Blank cs') (hrule : ∀ rule, Line.IsRule cs rule → Line.IsRule cs' rule)
    (hcontinuation : ∀ alternatives, Line.IsContinuation cs alternatives →
      Line.IsContinuation cs' alternatives)
    (hlines : ∀ left? rules, Describes left? lines rules → Describes left? lines' rules)
    (h : Describes left? (cs :: lines) rules) : Describes left? (cs' :: lines') rules := by
  cases h with
  | blank hcs h => exact .blank (hblank hcs) (hlines _ _ h)
  | rule hcs h => exact .rule (hrule _ hcs) (hlines _ _ h)
  | continuation hcs h => exact .continuation (hcontinuation _ hcs) (hlines _ _ h)

/-- **Blank lines and the white space at the ends of lines change no rule.** -/
theorem describes_writtenLines_iff :
    Describes left? (writtenLines lines) rules ↔ Describes left? lines rules := by
  induction lines generalizing left? rules with
  | nil => rfl
  | cons cs lines ih =>
    by_cases hcs : Text.trimEnd cs = []
    · have hblank : Blank cs := blank_trimEnd_iff.mp (by rw [hcs]; exact List.forall_mem_nil _)
      have hdrop : writtenLines (cs :: lines) = writtenLines lines := by simp [writtenLines, hcs]
      rw [hdrop, ih, describes_cons_of_blank hblank]
    · have hcons : writtenLines (cs :: lines) = Text.trimEnd cs :: writtenLines lines := by
        simp [writtenLines, hcs]
      rw [hcons]
      exact ⟨Describes.cons_of blank_trimEnd_iff.mp (fun _ => isRule_trimEnd_iff.mp)
          (fun _ => isContinuation_trimEnd_iff.mp) fun _ _ => ih.mp,
        Describes.cons_of blank_trimEnd_iff.mpr (fun _ => isRule_trimEnd_iff.mpr)
          (fun _ => isContinuation_trimEnd_iff.mpr) fun _ _ => ih.mpr⟩

end WhiteSpace

/-! ## The rules of blocks -/

namespace RuleBlock

theorem left_of_mem_rules {b : RuleBlock} (h : rule ∈ b.rules) : rule.left = b.left := by
  rcases List.mem_cons.mp h with rfl | h
  · rfl
  · obtain ⟨cs, -, hcs⟩ := List.mem_filterMap.mp h
    rw [continuation?] at hcs
    split at hcs
    · rw [← Option.some.inj hcs]
    · exact nomatch hcs

/-- Lines below a rule describe what they add to its left side. -/
theorem describes_below {left : String} {below rest : List (List Char)} {others : List Rule}
    (hbelow : ∀ cs ∈ below, Blank cs ∨ ∃ alternatives, Line.IsContinuation cs alternatives)
    (h : Describes (some left) rest others) :
    Describes (some left) (below ++ rest) (below.filterMap (continuation? left) ++ others) := by
  induction below with
  | nil => exact h
  | cons cs below ih =>
    obtain ⟨hcs, hbelow⟩ := List.forall_mem_cons.mp hbelow
    rcases hcs with hblank | ⟨alternatives, hcontinuation⟩
    · have hnone : continuation? left cs = none := by
        rw [continuation?, Line.read_of_blank hblank]
      rw [List.filterMap_cons_none hnone]
      exact .blank hblank (ih hbelow)
    · have hsome : continuation? left cs = some ⟨left, alternatives⟩ := by
        rw [continuation?, Line.read_of_isContinuation hcontinuation]
      rw [List.filterMap_cons_some hsome]
      exact .continuation hcontinuation (ih hbelow)

/-- **The lines of blocks give the rules of the blocks.** -/
theorem describes (blocks : List RuleBlock) :
    Describes left? (blocks.flatMap lines) (blocks.flatMap rules) := by
  induction blocks generalizing left? with
  | nil => exact .nil left?
  | cons b blocks ih => exact .rule b.isRule (describes_below b.below_cases ih)

/-- **A left side is given the alternatives of its blocks**, in their order. -/
theorem alternativesIn_flatMap_rules (blocks : List RuleBlock) (name : String) :
    alternativesIn (blocks.flatMap rules) name =
      (blocks.filter fun b => b.left = name).flatMap alternatives :=
  alternativesIn_flatMap fun _ _ _ hrule => left_of_mem_rules hrule

end RuleBlock

/-! ## Reordered texts -/

section Reordered

variable {blocks blocks' : List RuleBlock} (hperm : blocks'.Perm blocks)

include hperm

theorem mem_rules_iff_of_perm :
    rule ∈ blocks'.flatMap RuleBlock.rules ↔ rule ∈ blocks.flatMap RuleBlock.rules :=
  (hperm.flatMap_right _).mem_iff

/-- The end mark is mentioned under two left sides in both texts or in neither. -/
theorem markedTwice_of_perm (h : MarkedTwice (blocks'.flatMap RuleBlock.rules)) :
    MarkedTwice (blocks.flatMap RuleBlock.rules) := by
  obtain ⟨rule, hrule, rule', hrule', hmarks⟩ := h
  exact ⟨rule, (mem_rules_iff_of_perm hperm).mp hrule, rule',
    (mem_rules_iff_of_perm hperm).mp hrule', hmarks⟩

/-- **Reordered texts are spelled alike.** -/
theorem Loads.spelling_perm (h : Loads text (blocks.flatMap RuleBlock.rules) g)
    (h' : Loads text' (blocks'.flatMap RuleBlock.rules) g')
    (horder : ∀ left, (blocks'.filter fun b => b.left = left) =
      blocks.filter fun b => b.left = left) : g'.spelling.Perm g.spelling := by
  have halternatives (name : String) : alternativesIn (blocks'.flatMap RuleBlock.rules) name =
      alternativesIn (blocks.flatMap RuleBlock.rules) name := by
    rw [RuleBlock.alternativesIn_flatMap_rules, RuleBlock.alternativesIn_flatMap_rules, horder]
  have hleft (name : String) : name ∈ (blocks'.flatMap RuleBlock.rules).map Rule.left ↔
      name ∈ (blocks.flatMap RuleBlock.rules).map Rule.left :=
    ((hperm.flatMap_right _).map _).mem_iff
  refine (List.perm_ext_iff_of_nodup
    (List.Nodup.of_map _ h'.built.wellFormed.nodup_map_fst_spelling)
    (List.Nodup.of_map _ h.built.wellFormed.nodup_map_fst_spelling)).mpr fun entry => ?_
  rw [h'.spelling_eq, h.spelling_eq]
  simp only [List.mem_map, List.mem_eraseDups, halternatives] at hleft ⊢
  simp only [hleft]

end Reordered

/-- **A reordered text is loaded**, and its grammar is spelled alike. -/
theorem Reorders.exists_loads (hmoved : Reorders text text') (h : Grammar.ofText text = .ok g) :
    g.Built ∧ g.SpelledOut ∧ ∃ g', Grammar.ofText text' = .ok g' ∧ g'.Built ∧ g'.SpelledOut ∧
      g'.spelling.Perm g.spelling := by
  obtain ⟨blocks, blocks', hlines, hlines', hperm, horder⟩ := hmoved
  obtain ⟨rules, hloads⟩ := Grammar.exists_loads h
  have hdescribes : Describes none (Text.lines text.toList) (blocks.flatMap RuleBlock.rules) := by
    rw [← describes_writtenLines_iff, hlines, describes_writtenLines_iff]
    exact RuleBlock.describes blocks
  have hdescribes' :
      Describes none (Text.lines text'.toList) (blocks'.flatMap RuleBlock.rules) := by
    rw [← describes_writtenLines_iff, hlines', describes_writtenLines_iff]
    exact RuleBlock.describes blocks'
  obtain rfl := hloads.describes.unique hdescribes
  have hne : blocks'.flatMap RuleBlock.rules ≠ [] := fun hnil => hloads.ne_nil <|
    List.Perm.eq_nil (hnil ▸ (hperm.flatMap_right RuleBlock.rules).symm)
  obtain ⟨g', hg', hloads'⟩ := Grammar.exists_loads_of_describes hdescribes' hne
    (mt (markedTwice_of_perm hperm) hloads.markedOnce)
  exact ⟨hloads.built, hloads.spelledOut, g', hg', hloads'.built, hloads'.spelledOut,
    hloads.spelling_perm hperm hloads' horder⟩

/-! ## What does not tell grammars apart -/

/-- Two grammars of which the same is reported and with which the same is parsed. -/
structure Grammar.Agrees (g g' : Grammar) : Prop where
  /-- The productions, the sets and the lookaheads are printed alike, in all formats and however
  names are escaped. -/
  render_eq : ∀ report ∈ [Report.productions, .sets, .predict], ∀ format escape, ∃ out,
    report.render format g escape = .ok out ∧ report.render format g' escape = .ok out
  /-- There is a predictive table for both or for neither. -/
  exists_table_iff : ∀ policy, (∃ table, g'.predictiveTable policy = .ok table) ↔
    ∃ table, g.predictiveTable policy = .ok table
  /-- Parses end together. -/
  exists_stops_iff : ∀ policy table table', g.predictiveTable policy = .ok table →
    g'.predictiveTable policy = .ok table' → ∀ tokens,
      ((∃ o, Stops g' table' (.initial g'.start tokens) o) ↔
        ∃ o, Stops g table (.initial g.start tokens) o)
  /-- They end with the same error, or with trees that are printed alike, and leave the same
  tokens. -/
  parse_eq : ∀ policy table table', g.predictiveTable policy = .ok table →
    g'.predictiveTable policy = .ok table' → ∀ tokens format escape,
      (g'.parse table' tokens).map (Outcome.print g' format escape) =
        (g.parse table tokens).map (Outcome.print g format escape)
  length_states : g'.automaton.states.length = g.automaton.states.length
  isSLR1_eq : ∃ table table', g.automaton.actionTable g = .ok table ∧
    g'.automaton.actionTable g' = .ok table' ∧ table'.isSLR1 = table.isSLR1

/-- **Renamings cannot be told apart.** -/
theorem Renames.agrees {φ : Equiv.Perm SymbolId} (h : Renames φ g g') : g.Agrees g' := by
  constructor
  case render_eq =>
    intro report hreport format escape
    obtain ⟨sets, hsets, -⟩ := h.wellFormed.exists_sets
    simp only [List.mem_cons, List.not_mem_nil, or_false] at hreport
    rcases hreport with rfl | rfl | rfl
    · refine ⟨_, rfl, ?_⟩
      simp only [Report.render, h.productionReport_eq]
    · obtain ⟨r, hr⟩ : ∃ r, g.setsReport = .ok r := ⟨_, by rw [Grammar.setsReport, hsets]; rfl⟩
      rw [Report.render, Report.render, h.setsReport_eq, hr]
      exact ⟨_, rfl, rfl⟩
    · obtain ⟨r, hr⟩ : ∃ r, g.predictReport = .ok r :=
        ⟨_, by rw [Grammar.predictReport, hsets]; rfl⟩
      rw [Report.render, Report.render, h.predictReport_eq, hr]
      exact ⟨_, rfl, rfl⟩
  case exists_table_iff => exact fun policy => h.exists_predictiveTable_iff
  case exists_stops_iff =>
    exact fun policy table table' htable htable' => h.exists_stops_iff htable htable'
  case parse_eq =>
    exact fun policy table table' htable htable' => h.map_print_parse htable htable'
  case length_states => exact h.length_states
  case isSLR1_eq => exact h.isSLR1_eq

/-- **The order of the rule blocks does not matter.**  A text that is loaded is loaded with its
blocks in another order too, and as long as the start symbol keeps its name nothing that is reported
or parsed tells the grammars apart. -/
theorem Grammar.ofText_reordered (h : Grammar.ofText text = .ok g) (hmoved : Reorders text text') :
    ∃ g', Grammar.ofText text' = .ok g' ∧
      (g'.nameOf g'.start = g.nameOf g.start → g.Agrees g') := by
  obtain ⟨hg, hs, g', hg', hbuilt, hs', hperm⟩ := hmoved.exists_loads h
  refine ⟨g', hg', fun hstart => ?_⟩
  obtain ⟨φ, hφ⟩ := exists_renames hg hbuilt hs hs' hperm hstart
  exact hφ.agrees

namespace RuleBlock

/-- The line `S -> A $`. -/
def marked : RuleBlock where
  first := "S -> A $".toList
  below := []
  rule := ⟨"S", [["A", "$"]]⟩
  isRule := Line.isRule_of_read rfl
  below_cases := List.forall_mem_nil _

/-- The lines `A -> a A` and `| lambda`. -/
def chain : RuleBlock where
  first := "A -> a A".toList
  below := ["  | lambda".toList]
  rule := ⟨"A", [["a", "A"]]⟩
  isRule := Line.isRule_of_read rfl
  below_cases := List.forall_mem_singleton.mpr
    (Or.inr ⟨[["lambda"]], Line.isContinuation_of_read rfl⟩)

theorem reorders_marked_chain :
    Reorders "S -> A $\nA -> a A\n  | lambda\n" "A -> a A\n  | lambda\r\n\nS -> A $" := by
  refine .intro [marked, chain] [chain, marked] (by rfl) (by rfl) (List.Perm.swap _ _ _) ?_
  intro left
  by_cases hleft : "S" = left
  · have hchain : decide (chain.left = left) = false := by
      subst hleft
      decide
    simp [List.filter_cons, hchain]
  · have hmarked : decide (marked.left = left) = false := decide_eq_false hleft
    simp [List.filter_cons, hmarked]

end RuleBlock

namespace Grammar

/-- The grammar `S -> A $`, `A -> a A | lambda`. -/
def chained : Grammar :=
  ⟨[.epsilon, .endMark, .nonTerminal "S" [[3, endMarkId]], .nonTerminal "A" [[4, 3], [epsilonId]],
    .terminal "a"], 2, [⟨1, 3, 0, [4, 3]⟩, ⟨2, 3, 1, [epsilonId]⟩, ⟨3, 2, 0, [3, endMarkId]⟩]⟩

/-- The same grammar with `A` numbered before `S`. -/
def chainedBack : Grammar :=
  ⟨[.epsilon, .endMark, .nonTerminal "A" [[4, 2], [epsilonId]], .nonTerminal "S" [[2, endMarkId]],
    .terminal "a"], 3, [⟨1, 2, 0, [4, 2]⟩, ⟨2, 2, 1, [epsilonId]⟩, ⟨3, 3, 0, [2, endMarkId]⟩]⟩

/-- The chain is described from its start or from its end. -/
theorem ofText_reordered_chained :
    ofText "S -> A $\nA -> a A\n  | lambda\n" = .ok chained ∧
      ofText "A -> a A\n  | lambda\r\n\nS -> A $" = .ok chainedBack ∧
      chainedBack.nameOf chainedBack.start = chained.nameOf chained.start ∧
      chained.Agrees chainedBack := by
  have hload : ofText "S -> A $\nA -> a A\n  | lambda\n" = .ok chained := by rfl
  have hback : ofText "A -> a A\n  | lambda\r\n\nS -> A $" = .ok chainedBack := by rfl
  obtain ⟨g', hg', hagrees⟩ := ofText_reordered hload RuleBlock.reorders_marked_chain
  obtain rfl := Except.ok.inj (hg'.symm.trans hback)
  exact ⟨hload, hback, rfl, hagrees rfl⟩

end Grammar

end GrammarTables
