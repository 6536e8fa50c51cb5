import GrammarTables.Proofs.Grammar.Loader

/-!
# Proofs/Grammar/Spelling — a loaded grammar by its names

Spelled out, a grammar is the list of its non-terminals with their alternatives, by names and in the
order of their numbers (`Grammar.spelling`).  **Of a loaded grammar this is a function of the
rules** (`Loads.spelling_eq`): the left sides in the order of their first lines, each with the
alternatives that its rules give it.  The productions follow from it, by names
(`Grammar.Built.map_named_productions`), and for a loaded grammar the terminals and the start symbol
do too (`Grammar.SpelledOut`).
-/

namespace GrammarTables

variable {b b' : Builder} {g : Grammar} {name left : String} {names : List String} {s : SymbolId}
  {right : List SymbolId} {rules : List Rule} {rule : Rule} {text : String}

/-! ## Steps that succeed -/

/-- A sequence of calls that succeeds is taken apart at its first call. -/
theorem exists_of_bind_eq_ok {ε α β : Type} {x : Except ε α} {f : α → Except ε β} {y : β}
    (h : x >>= f = .ok y) : ∃ a, x = .ok a ∧ f a = .ok y := by
  cases x with
  | ok a => exact ⟨a, rfl, h⟩
  | error e => exact nomatch h

/-- What each step of a fold keeps holds after the fold, with the entries done so far. -/
theorem foldlM_induction {ε α β : Type} {f : β → α → Except ε β} {motive : List α → β → Prop}
    {entries : List α} {b b' : β} (start : motive [] b)
    (step : ∀ done, ∀ a ∈ entries, ∀ b b', motive done b → f b a = .ok b' →
      motive (done ++ [a]) b')
    (h : entries.foldlM f b = .ok b') : motive entries b' := by
  induction entries generalizing b motive with
  | nil =>
    obtain rfl := Except.ok.inj h
    exact start
  | cons a entries ih =>
    rw [List.foldlM_cons] at h
    obtain ⟨c, hc, h⟩ := exists_of_bind_eq_ok h
    exact ih (motive := fun done => motive (a :: done))
      (step [] a List.mem_cons_self b c start hc)
      (fun done a' ha' => step (a :: done) a' (List.mem_cons_of_mem a ha')) h

/-! ## Groups with a key each -/

section Groups

variable {α β κ : Type} [DecidableEq κ] {as : List α} {key : α → κ}

/-- What comes in groups with a key each is picked by groups. -/
theorem filter_flatMap_of_key {members : α → List β} {keyOf : β → κ} {k : κ}
    (h : ∀ a ∈ as, ∀ b ∈ members a, keyOf b = key a) :
    ((as.flatMap members).filter fun b => keyOf b = k) =
      (as.filter fun a => key a = k).flatMap members := by
  induction as with
  | nil => rfl
  | cons a as ih =>
    obtain ⟨ha, has⟩ := List.forall_mem_cons.mp h
    rw [List.flatMap_cons, List.filter_append, ih has]
    by_cases hkey : key a = k
    · have hall : ((members a).filter fun b => keyOf b = k) = members a :=
        List.filter_eq_self.mpr fun b hb => decide_eq_true ((ha b hb).trans hkey)
      rw [hall, List.filter_cons, if_pos (by simpa using hkey), List.flatMap_cons]
    · have hnone : ((members a).filter fun b => keyOf b = k) = [] :=
        List.filter_eq_nil_iff.mpr fun b hb heq =>
          hkey ((ha b hb).symm.trans (of_decide_eq_true heq))
      rw [hnone, List.filter_cons, if_neg (by simpa using hkey), List.nil_append]

/-- Of members with different keys only one has a given key. -/
theorem filter_key_eq_singleton {a : α} (hnodup : (as.map key).Nodup) (ha : a ∈ as) :
    (as.filter fun b => key b = key a) = [a] := by
  induction as with
  | nil => exact absurd ha List.not_mem_nil
  | cons b as ih =>
    obtain ⟨hb, hnodup⟩ := List.nodup_cons.mp hnodup
    rcases List.mem_cons.mp ha with rfl | ha
    · have hnone : (as.filter fun b => key b = key a) = [] :=
        List.filter_eq_nil_iff.mpr fun c hc heq =>
          hb (of_decide_eq_true heq ▸ List.mem_map_of_mem hc)
      rw [List.filter_cons, if_pos (by simp), hnone]
    · have hne : key b ≠ key a := fun heq => hb (heq ▸ List.mem_map_of_mem ha)
      rw [List.filter_cons, if_neg (by simpa using hne), ih hnodup ha]

end Groups

/-- Groups of rules for one left side each give a left side what its groups give it. -/
theorem alternativesIn_flatMap {α : Type} {as : List α} {key : α → String} {members : α → List Rule}
    (h : ∀ a ∈ as, ∀ rule ∈ members a, rule.left = key a) :
    alternativesIn (as.flatMap members) name =
      (as.filter fun a => key a = name).flatMap fun a => (members a).flatMap Rule.alternatives := by
  rw [alternativesIn, filter_flatMap_of_key h, List.flatMap_assoc]

/-! ## Names as they are printed -/

/-- The name by which the symbol called `name` is printed. -/
def printedName (name : String) : String :=
  if Symbol.isCalled name .epsilon then Symbol.epsilonName else name

/-- An alternative as it is printed. -/
def printedNames (names : List String) : List String :=
  if names.isEmpty then [Symbol.epsilonName] else names.map printedName

/-- What is printed is printed the same when it is read again. -/
theorem printedNames_comp_printedNames : printedNames ∘ printedNames = printedNames := by
  have hprinted (name : String) : printedName (printedName name) = printedName name := by
    by_cases hcalled : Symbol.isCalled name .epsilon
    · rw [show printedName name = Symbol.epsilonName from if_pos hcalled]
      rfl
    · rw [show printedName name = name from if_neg hcalled, printedName, if_neg hcalled]
  funext names
  rw [Function.comp_apply]
  cases names with
  | nil => rfl
  | cons name names => simp [printedNames, hprinted]

/-- Printing changes names of the empty string and no others. -/
theorem mem_printedNames (hname : Symbol.isCalled name .epsilon = false) :
    name ∈ printedNames names ↔ name ∈ names := by
  have hne : name ≠ Symbol.epsilonName := by
    rintro rfl
    exact absurd hname (by decide)
  have hprinted (other : String) : printedName other = name ↔ other = name := by
    rw [printedName]
    split
    · next hcalled =>
      refine ⟨fun h => absurd h.symm hne, fun h => ?_⟩
      rw [h, hname] at hcalled
      exact absurd hcalled Bool.false_ne_true
    · exact Iff.rfl
  rw [printedNames]
  split
  · next hnil => simp [List.isEmpty_iff.mp hnil, hne]
  · simp [List.mem_map, hprinted]

namespace Grammar

/-- **A symbol is printed by the name it is called**, other names of the empty string apart. -/
theorem WellFormed.nameOf_of_index? (hg : g.WellFormed) (h : g.index? name = some s) :
    g.nameOf s = printedName name := by
  obtain ⟨hlt, hcalled, hfirst⟩ := List.findIdx?_eq_some_iff_getElem.mp h
  have hsymbol : g.symbol? s = some g.symbols[s] := List.getElem?_eq_getElem hlt
  rw [nameOf, name?, hsymbol, Option.map_some, Option.getD_some, printedName]
  split
  · next hepsilon =>
    obtain ⟨hzero, hget⟩ := List.getElem?_eq_some_iff.mp hg.symbol_epsilon
    have hs : s = epsilonId := by
      refine Nat.eq_zero_of_not_pos fun hpos => ?_
      exact hfirst epsilonId hpos (by rw [hget]; exact hepsilon)
    subst hs
    rw [hget]
    rfl
  · next hepsilon =>
    generalize g.symbols[s] = symbol at hcalled
    cases symbol with
    | epsilon => exact absurd hcalled hepsilon
    | _ => exact of_decide_eq_true hcalled

theorem WellFormed.nameOf_epsilon (hg : g.WellFormed) :
    g.nameOf epsilonId = Symbol.epsilonName := by
  rw [nameOf, name?, hg.symbol_epsilon]
  rfl

/-- A right side is printed as the alternative that it was read from. -/
theorem WellFormed.spell_eq_of_stands (hg : g.WellFormed) (h : Stands g.index? names right) :
    g.spell right = printedNames names := by
  rcases h with ⟨rfl, rfl⟩ | ⟨hne, hmap⟩
  · rw [spell, List.map_singleton, hg.nameOf_epsilon]
    rfl
  · rw [printedNames, if_neg (by simpa using hne), spell]
    clear hne
    induction names generalizing right with
    | nil =>
      obtain rfl := List.map_eq_nil_iff.mp hmap.symm
      rfl
    | cons name names ih =>
      cases right with
      | nil => exact nomatch hmap
      | cons s right =>
        obtain ⟨hs, hmap⟩ := List.cons.inj hmap
        rw [List.map_cons, hg.nameOf_of_index? hs, ih hmap, List.map_cons]

/-- **Alternatives are spelled by the names they were read from**, up to other spellings of the
empty string. -/
theorem WellFormed.map_spell_eq_of_stands (hg : g.WellFormed) {alternatives : Alternatives}
    {rights : List (List SymbolId)} (h : List.Forall₂ (Stands g.index?) alternatives rights) :
    rights.map g.spell = alternatives.map printedNames := by
  induction h with
  | nil => rfl
  | cons hright _ ih => rw [List.map_cons, List.map_cons, hg.spell_eq_of_stands hright, ih]

/-- The non-terminals in the order of their numbers, each with its alternatives, by names. -/
def spelling (g : Grammar) : List (String × Alternatives) :=
  g.nonTerminals.map fun nt => (nt.name, nt.alternatives.map g.spell)

/-- The spelling lists the non-terminals with their alternatives, and no numbers. -/
theorem mem_spelling {name : String} {rights : Alternatives} : (name, rights) ∈ g.spelling ↔
    ∃ s alternatives, g.symbol? s = some (.nonTerminal name alternatives) ∧
      alternatives.map g.spell = rights := by
  rw [spelling, List.mem_map]
  constructor
  · rintro ⟨nt, hnt, heq⟩
    obtain ⟨rfl, rfl⟩ := Prod.mk.inj heq
    exact ⟨nt.index, nt.alternatives, mem_nonTerminalsOf.mp hnt, rfl⟩
  · rintro ⟨s, alternatives, hs, rfl⟩
    exact ⟨⟨s, name, alternatives⟩, mem_nonTerminalsOf.mpr hs, rfl⟩

/-- Different non-terminals have different names. -/
theorem WellFormed.nodup_names (hg : g.WellFormed) :
    (g.nonTerminals.map NonTerminal.name).Nodup := by
  have hname {nt : NonTerminal} (hnt : nt ∈ g.nonTerminals) : g.index? nt.name = some nt.index := by
    have hsymbol : g.symbol? nt.index = some (.nonTerminal nt.name nt.alternatives) :=
      mem_nonTerminalsOf.mp hnt
    exact hg.index_name hsymbol
  rw [List.Nodup, List.pairwise_map]
  refine pairwise_index_nonTerminalsOf.imp_of_mem fun ha hb hne heq => ?_
  exact hne (Option.some.inj ((hname ha).symm.trans ((congrArg _ heq).trans (hname hb))))

theorem WellFormed.nodup_nonTerminals (hg : g.WellFormed) : g.nonTerminals.Nodup :=
  List.Nodup.of_map _ hg.nodup_names

theorem map_fst_spelling : g.spelling.map Prod.fst = g.nonTerminals.map NonTerminal.name := by
  rw [spelling, List.map_map]
  rfl

/-- A left side is listed once. -/
theorem WellFormed.nodup_map_fst_spelling (hg : g.WellFormed) : (g.spelling.map Prod.fst).Nodup :=
  map_fst_spelling ▸ hg.nodup_names

end Grammar

/-! ## The order of the non-terminals -/

/-- The name of a non-terminal. -/
def Symbol.nonTerminalName? : Symbol → Option String
  | nonTerminal name _ => some name
  | _ => none

/-- The names of the non-terminals, in the order of their numbers. -/
def Symbol.nonTerminalNames (symbols : List Symbol) : List String :=
  symbols.filterMap nonTerminalName?

theorem map_name_nonTerminalsOf (symbols : List Symbol) :
    (nonTerminalsOf symbols).map NonTerminal.name = Symbol.nonTerminalNames symbols := by
  rw [nonTerminalsOf, List.map_filterMap, Symbol.nonTerminalNames]
  conv_rhs => rw [← List.zipIdx_map_fst 0 symbols]
  rw [List.filterMap_map]
  refine List.filterMap_congr fun entry _ => ?_
  obtain ⟨symbol, index⟩ := entry
  cases symbol <;> rfl

namespace Symbol

variable {symbols : List Symbol}

theorem mem_nonTerminalNames : name ∈ nonTerminalNames symbols ↔
    ∃ alternatives, .nonTerminal name alternatives ∈ symbols := by
  rw [nonTerminalNames, List.mem_filterMap]
  constructor
  · rintro ⟨symbol, hmem, hname⟩
    cases symbol with
    | nonTerminal name' alternatives =>
      obtain rfl := Option.some.inj hname
      exact ⟨alternatives, hmem⟩
    | _ => exact nomatch hname
  · rintro ⟨alternatives, hmem⟩
    exact ⟨_, hmem, rfl⟩

/-- One more alternative changes no name. -/
theorem nonTerminalNames_modify (left : SymbolId) :
    nonTerminalNames (symbols.modify left (Builder.withAlternative right)) =
      nonTerminalNames symbols := by
  have hkeep (symbol : Symbol) :
      nonTerminalName? (Builder.withAlternative right symbol) = nonTerminalName? symbol := by
    cases symbol <;> rfl
  induction symbols generalizing left with
  | nil => cases left <;> rfl
  | cons symbol symbols ih =>
    cases left with
    | zero => simp [nonTerminalNames, List.filterMap_cons, hkeep]
    | succ left =>
      have hrest := ih left
      simp only [nonTerminalNames] at hrest
      simp [nonTerminalNames, List.filterMap_cons, hrest]

end Symbol

namespace Builder

/-- The names of the non-terminals, in the order of their numbers. -/
def lefts (b : Builder) : List String :=
  Symbol.nonTerminalNames b.symbols

/-- **A left side is put at the end, unless it is there already.** -/
theorem lefts_of_addNonTerminal (h : b.addNonTerminal name = .ok (b', s)) :
    b'.lefts = if name ∈ b.lefts then b.lefts else b.lefts ++ [name] := by
  rw [addNonTerminal, declare] at h
  split at h
  · next hnone =>
    obtain ⟨rfl, -⟩ := Prod.mk.inj (Except.ok.inj h)
    rw [if_neg]
    · simp [lefts, Symbol.nonTerminalNames, Symbol.nonTerminalName?]
    · intro hmem
      obtain ⟨alternatives, hsymbol⟩ := Symbol.mem_nonTerminalNames.mp hmem
      exact absurd (Symbol.isCalled_name (.nonTerminal name alternatives))
        (Bool.eq_false_iff.mp (List.findIdx?_eq_none_iff.mp hnone _ hsymbol))
  · next t hsome =>
    split at h
    · next hkind =>
      obtain ⟨rfl, -⟩ := Prod.mk.inj (Except.ok.inj h)
      obtain ⟨symbol, hsymbol, hcalled⟩ := exists_of_index? hsome
      rw [hsymbol] at hkind
      cases symbol with
      | nonTerminal name' alternatives =>
        obtain rfl : name' = name := of_decide_eq_true hcalled
        exact (if_pos (Symbol.mem_nonTerminalNames.mpr
          ⟨alternatives, List.mem_of_getElem? hsymbol⟩)).symm
      | _ => cases hkind
    · cases h

/-- A name that is only mentioned becomes no left side. -/
theorem lefts_of_mention (h : b.mention name = .ok (b', s)) : b'.lefts = b.lefts := by
  rw [mention] at h
  split at h
  · obtain ⟨rfl, -⟩ := Prod.mk.inj (Except.ok.inj h)
    rfl
  · next hnone =>
    rw [addTerminal, declare, hnone] at h
    obtain ⟨rfl, -⟩ := Prod.mk.inj (Except.ok.inj h)
    simp [lefts, Symbol.nonTerminalNames, Symbol.nonTerminalName?]

theorem lefts_of_mentionAll (h : b.mentionAll names = .ok (b', right)) : b'.lefts = b.lefts := by
  induction names generalizing b right with
  | nil =>
    obtain ⟨rfl, -⟩ := Prod.mk.inj (Except.ok.inj h)
    rfl
  | cons name names ih =>
    obtain ⟨⟨b₁, s⟩, hmention, h⟩ := exists_of_bind_eq_ok h
    obtain ⟨⟨b₂, rest⟩, hrest, h⟩ := exists_of_bind_eq_ok h
    obtain ⟨rfl, -⟩ := Prod.mk.inj (Except.ok.inj h)
    rw [ih hrest, lefts_of_mention hmention]

theorem lefts_of_addProduction (h : b.addProduction s right = .ok b') : b'.lefts = b.lefts := by
  rw [addProduction] at h
  split at h
  · cases h
  · split at h
    · cases h
    · obtain rfl := Except.ok.inj h
      exact Symbol.nonTerminalNames_modify s

theorem lefts_of_addAlternative (h : b.addAlternative left names = .ok b')
    (hleft : left ∈ b.lefts) : b'.lefts = b.lefts := by
  obtain ⟨⟨b₁, right⟩, hnames, h⟩ := exists_of_bind_eq_ok h
  obtain ⟨⟨b₂, s⟩, hadd, h⟩ := exists_of_bind_eq_ok h
  have hnames' := lefts_of_mentionAll hnames
  rw [lefts_of_addProduction h, lefts_of_addNonTerminal hadd, hnames', if_pos hleft]

/-- A rule adds alternatives to a left side that is there already. -/
theorem lefts_of_addRule (h : b.addRule rule = .ok b') (hleft : rule.left ∈ b.lefts) :
    b'.lefts = b.lefts := by
  refine foldlM_induction (motive := fun _ c => c.lefts = b.lefts) rfl ?_ h
  intro _ names _ c c' hc hadd
  rw [lefts_of_addAlternative hadd (hc ▸ hleft), hc]

/-- **The left sides are declared in the order of their first lines.** -/
theorem lefts_of_declareLefts (h : declareLefts rules = .ok b) :
    b.lefts = (rules.map Rule.left).eraseDups := by
  refine foldlM_induction (motive := fun done c => c.lefts = (done.map Rule.left).eraseDups)
    rfl ?_ h
  intro done rule _ c c' hc hadd
  obtain ⟨⟨b₁, s⟩, hnonTerminal, rfl⟩ := exists_of_map_eq_ok hadd
  rw [lefts_of_addNonTerminal hnonTerminal, hc, List.map_append, List.eraseDups_append,
    List.map_singleton, List.removeAll, List.filter_singleton]
  by_cases hmem : rule.left ∈ done.map Rule.left
  · simp [hmem]
  · simp [hmem, List.eraseDups_cons]

/-- Rules whose left sides are declared add no further ones. -/
theorem lefts_of_addRules (hlefts : ∀ rule ∈ rules, rule.left ∈ b.lefts)
    (h : rules.foldlM addRule b = .ok b') : b'.lefts = b.lefts := by
  refine foldlM_induction (motive := fun _ c => c.lefts = b.lefts) rfl ?_ h
  intro _ rule hrule c c' hc hadd
  rw [lefts_of_addRule hadd (hc ▸ hlefts rule hrule), hc]

/-- The start symbol is one of the left sides. -/
theorem lefts_of_setStartName (hname : name ∈ b.lefts)
    (h : b.setStartName (some name) = .ok b') : b'.lefts = b.lefts := by
  obtain ⟨⟨b₁, s⟩, hadd, h⟩ := exists_of_bind_eq_ok h
  change b₁.setStart s = .ok b' at h
  rw [setStart] at h
  split at h
  · cases h
  · obtain rfl := Except.ok.inj h
    have hlefts := lefts_of_addNonTerminal hadd
    rwa [if_pos hname] at hlefts

/-- The non-terminals of the grammar are the left sides of the text, in their order. -/
theorem lefts_of_build (h : b.build = .ok g) :
    g.nonTerminals.map NonTerminal.name = b.lefts := by
  rw [build] at h
  split at h
  · cases h
  · split at h
    · cases h
    · obtain rfl := Except.ok.inj h
      exact map_name_nonTerminalsOf b.symbols

end Builder

/-- The non-terminals of the grammar of some rules are numbered in the order of their first
lines. -/
theorem Grammar.map_name_of_ofRules (h : Grammar.ofRules rules = .ok g) :
    g.nonTerminals.map NonTerminal.name = (rules.map Rule.left).eraseDups := by
  obtain ⟨start, hstart, h⟩ := exists_of_bind_eq_ok h
  obtain ⟨b₁, hdeclare, h⟩ := exists_of_bind_eq_ok h
  obtain ⟨b₂, hadd, h⟩ := exists_of_bind_eq_ok h
  obtain ⟨b₃, hset, h⟩ := exists_of_bind_eq_ok h
  have hlefts := Builder.lefts_of_declareLefts hdeclare
  have hmem : ∀ rule ∈ rules, rule.left ∈ b₁.lefts := fun rule hrule => by
    rw [hlefts, List.mem_eraseDups]
    exact List.mem_map_of_mem hrule
  have hadded := Builder.lefts_of_addRules hmem hadd
  rw [Builder.lefts_of_build h, ← hlefts, ← hadded]
  cases start with
  | none =>
    obtain rfl := Except.ok.inj hset
    rfl
  | some start =>
    refine Builder.lefts_of_setStartName ?_ hset
    rcases startName?_cases rules with ⟨_, _, -, htwo⟩ | ⟨-, hnone⟩ | ⟨name, hname, hone⟩
    · exact nomatch htwo.symm.trans hstart
    · exact nomatch hnone.symm.trans hstart
    · obtain rfl := Option.some.inj (Except.ok.inj (hone.symm.trans hstart))
      obtain ⟨rule, hrule, rfl⟩ := hname.mem
      exact hadded ▸ hmem rule hrule

/-! ## The spelling of a loaded grammar -/

/-- **The spelling of a grammar is that of its rules.** -/
theorem Grammar.Says.spelling_eq (h : g.Says rules) (hg : g.WellFormed)
    (horder : g.nonTerminals.map NonTerminal.name = (rules.map Rule.left).eraseDups) :
    g.spelling = (rules.map Rule.left).eraseDups.map fun name =>
      (name, (alternativesIn rules name).map printedNames) := by
  rw [← horder, List.map_map, spelling]
  refine List.map_congr_left fun nt hnt => Prod.ext rfl ?_
  have hsymbol : g.symbol? nt.index = some (.nonTerminal nt.name nt.alternatives) :=
    mem_nonTerminalsOf.mp hnt
  obtain ⟨rights, hrights, hstands⟩ :=
    h.alternatives nt.index (isNonTerminal_iff.mpr ⟨_, _, hsymbol⟩)
  rw [Grammar.alternatives, symbol, hsymbol] at hrights
  obtain rfl := Except.ok.inj hrights
  rw [nameOf, name?, hsymbol] at hstands
  exact hg.map_spell_eq_of_stands hstands

/-- A name stands in one of the alternatives. -/
def Mention (alternatives : Alternatives) (name : String) : Prop :=
  ∃ names ∈ alternatives, name ∈ names

/-- What the spelling of a loaded grammar says about it. -/
structure Grammar.SpelledOut (g : Grammar) : Prop where
  wellFormed : g.WellFormed
  /-- The terminals are the names in the alternatives that are not reserved and no left sides. -/
  terminal_iff : ∀ name, (∃ s, g.isTerminal s ∧ g.nameOf s = name) ↔
    (∃ entry ∈ g.spelling, Mention entry.2 name) ∧ name ∉ reservedNames ∧
      ∀ entry ∈ g.spelling, entry.1 ≠ name
  /-- The start symbol is the left side that mentions the end mark. -/
  start_marked : ∀ entry ∈ g.spelling, Mention entry.2 Symbol.endMarkName →
    entry.1 = g.nameOf g.start
  /-- It is the first left side when none does. -/
  start_first : (∀ entry ∈ g.spelling, ¬ Mention entry.2 Symbol.endMarkName) →
    g.spelling.head?.map Prod.fst = some (g.nameOf g.start)

/-- A name is mentioned by the alternatives of a left side when some rule for it mentions the
name. -/
theorem mention_alternativesIn_iff : Mention (alternativesIn rules left) name ↔
    ∃ rule ∈ rules, rule.left = left ∧ rule.Mentions name := by
  simp only [Mention, alternativesIn, List.mem_flatMap, List.mem_filter, decide_eq_true_eq,
    Rule.Mentions]
  constructor
  · rintro ⟨names, ⟨rule, ⟨hrule, hleft⟩, hnames⟩, hname⟩
    exact ⟨rule, hrule, hleft, names, hnames, hname⟩
  · rintro ⟨rule, hrule, hleft, names, hnames, hname⟩
    exact ⟨names, ⟨rule, ⟨hrule, hleft⟩, hnames⟩, hname⟩

theorem mention_map_printedNames_iff {alternatives : Alternatives}
    (hname : Symbol.isCalled name .epsilon = false) :
    Mention (alternatives.map printedNames) name ↔ Mention alternatives name := by
  simp [Mention, mem_printedNames hname]

theorem isCalled_epsilon_eq_false (hname : name ∉ reservedNames) :
    Symbol.isCalled name .epsilon = false := by
  have hnot := mt isReserved_iff.mp hname
  rw [isReserved, Bool.or_eq_true, not_or] at hnot
  exact Bool.eq_false_iff.mpr hnot.1

/-- **The spelling of a grammar that rules say says it too.** -/
theorem Grammar.Says.spelledOut (h : g.Says rules) (hg : g.WellFormed)
    (horder : g.nonTerminals.map NonTerminal.name = (rules.map Rule.left).eraseDups) :
    g.SpelledOut := by
  have hlefts : g.spelling.map Prod.fst = (rules.map Rule.left).eraseDups := by
    rw [spelling, List.map_map, ← horder]
    rfl
  have hleft {left : String} :
      (∃ entry ∈ g.spelling, entry.1 = left) ↔ ∃ rule ∈ rules, rule.left = left := by
    rw [← List.mem_map, hlefts, List.mem_eraseDups, List.mem_map]
  have hmention {entry : String × Alternatives} {name : String} (hentry : entry ∈ g.spelling)
      (hname : Symbol.isCalled name .epsilon = false) :
      Mention entry.2 name ↔ ∃ rule ∈ rules, rule.left = entry.1 ∧ rule.Mentions name := by
    rw [h.spelling_eq hg horder, List.mem_map] at hentry
    obtain ⟨left, -, rfl⟩ := hentry
    rw [mention_map_printedNames_iff hname, mention_alternativesIn_iff]
  constructor
  case wellFormed => exact hg
  case terminal_iff =>
    intro name
    rw [h.terminal_iff]
    have hno : (∀ entry ∈ g.spelling, entry.1 ≠ name) ↔ ∀ rule ∈ rules, rule.left ≠ name := by
      have hnot : ¬ (∃ entry ∈ g.spelling, entry.1 = name) ↔ ¬ ∃ rule ∈ rules, rule.left = name :=
        not_congr hleft
      push Not at hnot
      exact hnot
    rw [hno]
    refine and_congr_left fun ⟨hname, _⟩ => ?_
    have hcalled := isCalled_epsilon_eq_false hname
    constructor
    · rintro ⟨rule, hrule, hmentions⟩
      obtain ⟨entry, hentry, heq⟩ := hleft.mpr ⟨rule, hrule, rfl⟩
      exact ⟨entry, hentry, (hmention hentry hcalled).mpr ⟨rule, hrule, heq.symm, hmentions⟩⟩
    · rintro ⟨entry, hentry, hmentions⟩
      obtain ⟨rule, hrule, -, hmentions⟩ := (hmention hentry hcalled).mp hmentions
      exact ⟨rule, hrule, hmentions⟩
  case start_marked =>
    intro entry hentry hmarks
    obtain ⟨rule, hrule, heq, hmentions⟩ := (hmention hentry rfl).mp hmarks
    rw [← heq]
    exact h.start_marked rule hrule hmentions
  case start_first =>
    intro hnone
    rw [← List.head?_map, hlefts]
    have hfirst := h.start_first fun rule hrule hmentions => by
      obtain ⟨entry, hentry, heq⟩ := hleft.mpr ⟨rule, hrule, rfl⟩
      exact hnone entry hentry ((hmention hentry rfl).mpr ⟨rule, hrule, heq.symm, hmentions⟩)
    cases rules with
    | nil => exact nomatch hfirst
    | cons rule rules =>
      rw [List.map_cons, List.eraseDups_cons]
      exact hfirst

/-- What a text is loaded as. -/
structure Loads (text : String) (rules : List Rule) (g : Grammar) : Prop where
  describes : Describes none (Text.lines text.toList) rules
  ne_nil : rules ≠ []
  markedOnce : ¬ MarkedTwice rules
  spelling_eq : g.spelling = (rules.map Rule.left).eraseDups.map fun name =>
    (name, (alternativesIn rules name).map printedNames)
  built : g.Built
  spelledOut : g.SpelledOut

/-- The rules of a text and the grammar that is loaded from it, with all that later proofs ask of
the two. -/
theorem Grammar.Says.loads (h : g.Says rules)
    (hrules : Describes none (Text.lines text.toList) rules) (hne : rules ≠ [])
    (honce : ¬ MarkedTwice rules) (hg : g.Built) (hload : ofText text = .ok g) :
    Loads text rules g := by
  obtain ⟨rules', hread, hof⟩ := exists_of_bind_eq_ok hload
  obtain rfl := Except.ok.inj (hread.symm.trans (hrules.rulesFrom_eq 1))
  have horder := map_name_of_ofRules hof
  exact ⟨hrules, hne, honce, h.spelling_eq hg.wellFormed horder, hg,
    h.spelledOut hg.wellFormed horder⟩

namespace Grammar

/-- **A text that is loaded gives rules, and their grammar.** -/
theorem exists_loads (h : ofText text = .ok g) : ∃ rules, Loads text rules g := by
  rcases ofText_cases text with ⟨_, _, -, -, hfault⟩ | ⟨rules, hrules, -, hcases⟩
  · exact nomatch hfault.symm.trans h
  · rcases hcases with ⟨_, _, -, htwo⟩ | ⟨-, hmissing⟩ | ⟨hne, honce, g', hok, hbuilt, hsays⟩
    · exact nomatch htwo.symm.trans h
    · exact nomatch hmissing.symm.trans h
    · obtain rfl := Except.ok.inj (hok.symm.trans h)
      exact ⟨rules, hsays.loads hrules hne honce hbuilt h⟩

/-- **A text that gives rules is loaded**, unless two left sides mention the end mark. -/
theorem exists_loads_of_describes (h : Describes none (Text.lines text.toList) rules)
    (hne : rules ≠ []) (honce : ¬ MarkedTwice rules) :
    ∃ g, ofText text = .ok g ∧ Loads text rules g := by
  have hrules := h.forall_rule nofun
  have hread : readRules text = .ok rules := h.rulesFrom_eq 1
  rcases startName?_cases rules with ⟨_, _, htwo, -⟩ | ⟨hnil, -⟩ | ⟨start, hstart, hname⟩
  · exact absurd htwo.markedTwice honce
  · exact absurd hnil hne
  · obtain ⟨g, hok, hbuilt, hsays⟩ := exists_ofRules_eq_ok hrules hname hstart
    have hload : ofText text = .ok g := by rw [ofText_eq_of_readRules hread, hok]
    exact ⟨g, hload, hsays.loads h hne honce hbuilt hload⟩

end Grammar

/-! ## Productions by names -/

/-- A production by names. -/
structure NamedProduction where
  ordinal : Nat
  left : String
  alternative : Nat
  right : List String
deriving DecidableEq

/-- A production of a grammar, by names. -/
def Production.named (g : Grammar) (p : Production) : NamedProduction :=
  ⟨p.ordinal, g.nameOf p.left, p.alternative, g.spell p.right⟩

/-- The alternatives of a left side, not yet numbered in the grammar. -/
def namedAlternatives (entry : String × Alternatives) : List NamedProduction :=
  entry.2.zipIdx.map fun (right, alternative) => ⟨0, entry.1, alternative, right⟩

/-- All alternatives, numbered by left side and then by their place there. -/
def numberedNames (entries : List (String × Alternatives)) : List NamedProduction :=
  ((Ascending.sortBy Prod.fst entries).flatMap namedAlternatives).zipIdx.map fun (p, i) =>
    { p with ordinal := i + 1 }

theorem Grammar.Built.productions_eq (hg : g.Built) :
    g.productions = numberedProductions g.symbols := by
  obtain ⟨edits, h⟩ := hg
  rw [Builder.build] at h
  split at h
  · cases h
  · split at h
    · cases h
    · obtain rfl := Except.ok.inj h
      rfl

/-- A non-terminal is found under its own number. -/
theorem nameOf_index_of_mem {nt : NonTerminal} (hnt : nt ∈ g.nonTerminals) :
    g.nameOf nt.index = nt.name := by
  have hsymbol : g.symbol? nt.index = some (.nonTerminal nt.name nt.alternatives) :=
    mem_nonTerminalsOf.mp hnt
  exact Grammar.nameOf_of_symbol? hsymbol

theorem NonTerminal.map_named_productions {nt : NonTerminal} (hnt : nt ∈ g.nonTerminals) :
    nt.productions.map (Production.named g) =
      namedAlternatives (nt.name, nt.alternatives.map g.spell) := by
  rw [productions, namedAlternatives, List.zipIdx_map, List.map_map, List.map_map]
  refine List.map_congr_left fun entry _ => ?_
  rw [Function.comp_apply, Production.named, nameOf_index_of_mem hnt]
  rfl

/-- **The productions of a grammar, by names, follow from its spelling.** -/
theorem Grammar.Built.map_named_productions (hg : g.Built) :
    g.productions.map (Production.named g) = numberedNames g.spelling := by
  have hgroups : ((Ascending.sortBy NonTerminal.name g.nonTerminals).flatMap
      NonTerminal.productions).map (Production.named g) =
        (Ascending.sortBy Prod.fst g.spelling).flatMap namedAlternatives := by
    rw [spelling, Ascending.sortBy_map, List.flatMap_map, List.map_flatMap]
    refine List.flatMap_congr fun nt hnt => ?_
    exact NonTerminal.map_named_productions (Ascending.mem_sortBy.mp hnt)
  rw [hg.productions_eq, numberedProductions, numberedNames, ← hgroups, List.zipIdx_map,
    List.map_map, List.map_map]
  rfl

end GrammarTables
