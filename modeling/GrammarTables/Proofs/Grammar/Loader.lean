import GrammarTables.Grammar.Loader
import GrammarTables.Proofs.Grammar.Format
import GrammarTables.Proofs.Grammar.WellFormed

/-!
# Proofs/Grammar/Loader — a text becomes the grammar that it says

The rules of a text are given to a builder: first their left sides, then their alternatives one
after the other.  `Builder.Records` says what the builder holds by then, in terms of names: which
non-terminals, which terminals, and for each non-terminal the alternatives written so far.  Each of
the loader's steps succeeds on such a builder and moves the record on, so none of the builder's own
errors can come out.  What remains are the errors of the format, two start symbols and an empty
text (`Grammar.ofText_cases`).
-/

namespace GrammarTables

variable {b b' : Builder} {g : Grammar} {lefts names new : List String}
  {written : String → Alternatives} {left name : String} {s t : SymbolId} {rule : Rule}
  {rules : List Rule} {right : List SymbolId}

/-- A fold that succeeds step by step, with what holds after the entries done so far. -/
theorem exists_foldlM_eq_ok {ε α β : Type} {f : β → α → Except ε β} {holds : List α → β → Prop}
    {entries done : List α} {b : β} (hb : holds done b)
    (hstep : ∀ a ∈ entries, ∀ done b, holds done b →
      ∃ b', f b a = .ok b' ∧ holds (done ++ [a]) b') :
    ∃ b', entries.foldlM f b = .ok b' ∧ holds (done ++ entries) b' := by
  induction entries generalizing b done with
  | nil => exact ⟨b, rfl, by rwa [List.append_nil]⟩
  | cons a entries ih =>
    obtain ⟨b₁, hb₁, hholds⟩ := hstep a List.mem_cons_self done b hb
    obtain ⟨b', hb', hholds'⟩ := ih hholds fun a' ha' => hstep a' (List.mem_cons_of_mem a ha')
    refine ⟨b', ?_, by rwa [List.append_assoc] at hholds'⟩
    rw [List.foldlM_cons, hb₁]
    exact hb'

/-! ## Names and numbers -/

/-- The numbers of a right side are those that the names of an alternative have; an alternative
without a name is the empty string. -/
def Stands (index? : String → Option SymbolId) (names : List String) (right : List SymbolId) :
    Prop :=
  names = [] ∧ right = [epsilonId] ∨ names ≠ [] ∧ names.map index? = right.map some

/-- Names keep their numbers. -/
def Keeps (index? index?' : String → Option SymbolId) : Prop :=
  ∀ name s, index? name = some s → index?' name = some s

theorem Keeps.map_eq {index? index?' : String → Option SymbolId} (h : Keeps index? index?')
    (hnames : names.map index? = right.map some) : names.map index?' = right.map some := by
  rw [← hnames]
  refine List.map_congr_left fun name hname => ?_
  obtain ⟨s, -, hs⟩ := List.mem_map.mp (hnames ▸ List.mem_map_of_mem hname)
  rw [← hs]
  exact h name s hs.symm

theorem Stands.of_keeps {index? index?' : String → Option SymbolId} (h : Keeps index? index?')
    (hnames : Stands index? names right) : Stands index?' names right :=
  hnames.imp_right fun ⟨hne, hmap⟩ => ⟨hne, h.map_eq hmap⟩

/-- A symbol after one more alternative was given to the one at `left`. -/
theorem Symbol.mem_modify_iff {symbols : List Symbol} {symbol : Symbol} :
    symbol ∈ symbols.modify t (Builder.withAlternative right) ↔ ∃ s symbol',
      symbols[s]? = some symbol' ∧
        symbol = if t = s then Builder.withAlternative right symbol' else symbol' := by
  rw [List.mem_iff_getElem?]
  refine exists_congr fun s => ?_
  rw [List.getElem?_modify]
  refine Option.map_eq_some_iff.trans ?_
  exact exists_congr fun symbol' => and_congr_right fun _ => eq_comm

theorem Symbol.terminal_mem_modify_iff {symbols : List Symbol} :
    .terminal name ∈ symbols.modify t (Builder.withAlternative right) ↔
      .terminal name ∈ symbols := by
  rw [mem_modify_iff]
  constructor
  · rintro ⟨s, symbol', hs, heq⟩
    obtain rfl : symbol' = .terminal name := by
      split at heq
      · cases symbol' <;> first | exact heq.symm | exact nomatch heq
      · exact heq.symm
    exact List.mem_of_getElem? hs
  · intro h
    obtain ⟨s, hs⟩ := List.getElem?_of_mem h
    exact ⟨s, _, hs, by split <;> rfl⟩

theorem Symbol.exists_nonTerminal_mem_modify_iff {symbols : List Symbol} :
    (∃ alternatives, .nonTerminal name alternatives ∈
      symbols.modify t (Builder.withAlternative right)) ↔
        ∃ alternatives, .nonTerminal name alternatives ∈ symbols := by
  constructor
  · rintro ⟨alternatives, h⟩
    obtain ⟨s, symbol', hs, heq⟩ := mem_modify_iff.mp h
    obtain ⟨alternatives', rfl⟩ : ∃ alternatives', symbol' = .nonTerminal name alternatives' := by
      split at heq
      · cases symbol' with
        | nonTerminal name' alternatives' => exact ⟨_, by rw [(Symbol.nonTerminal.inj heq).1]⟩
        | _ => exact nomatch heq
      · exact ⟨alternatives, heq.symm⟩
    exact ⟨alternatives', List.mem_of_getElem? hs⟩
  · rintro ⟨alternatives, h⟩
    obtain ⟨s, hs⟩ := List.getElem?_of_mem h
    refine ⟨if t = s then alternatives ++ [right] else alternatives, ?_⟩
    refine mem_modify_iff.mpr ⟨s, _, hs, ?_⟩
    split <;> rfl

/-- The alternatives that the rules give to a left side. -/
def alternativesIn (rules : List Rule) (name : String) : Alternatives :=
  (rules.filter fun rule => rule.left = name).flatMap Rule.alternatives

theorem alternativesIn_ne_nil (hrule : rule ∈ rules) (hleft : rule.left = name)
    (hne : rule.alternatives ≠ []) : alternativesIn rules name ≠ [] := fun hnil =>
  hne (List.flatMap_eq_nil_iff.mp hnil rule
    (List.mem_filter.mpr ⟨hrule, decide_eq_true hleft⟩))

theorem alternativesIn_append_singleton {done : List Rule} : alternativesIn (done ++ [rule]) name =
    alternativesIn done name ++ if name = rule.left then rule.alternatives else [] := by
  rw [alternativesIn, List.filter_append, List.flatMap_append]
  refine congrArg _ ?_
  by_cases h : rule.left = name
  · simp [h]
  · simp [h, Ne.symm h]

namespace Builder

/-- Some history of changes leads to the builder. -/
def Reached (b : Builder) : Prop :=
  ∃ edits, empty.after edits = b

theorem Reached.edit {e : Edit} (hb : b.Reached) (h : b.edit e = .ok b') : b'.Reached := by
  obtain ⟨edits, rfl⟩ := hb
  refine ⟨edits ++ [e], ?_⟩
  rw [after, List.foldl_append]
  change ((empty.after edits).edit e).toOption.getD (empty.after edits) = b'
  rw [h]
  rfl

theorem Reached.coherent (hb : b.Reached) : b.Coherent := by
  obtain ⟨edits, rfl⟩ := hb
  exact coherent_empty.after edits

theorem Coherent.index?_of_mem {symbol : Symbol} (hb : b.Coherent) (h : symbol ∈ b.symbols) :
    ∃ s, b.symbols[s]? = some symbol ∧ b.index? symbol.name = some s := by
  obtain ⟨s, hs⟩ := List.getElem?_of_mem h
  exact ⟨s, hs, hb.index_name hs⟩

/-- A name that has a number is called so by the symbol there. -/
theorem exists_of_index? (h : b.index? name = some s) :
    ∃ symbol, b.symbols[s]? = some symbol ∧ symbol.isCalled name := by
  obtain ⟨hlt, hcalled, -⟩ := List.findIdx?_eq_some_iff_getElem.mp h
  exact ⟨_, List.getElem?_eq_getElem hlt, hcalled⟩

/-- A name that has a number is reserved, or that of a non-terminal or a terminal. -/
theorem reserved_or_exists_of_index? (h : b.index? name = some s) : name ∈ reservedNames ∨
    (∃ alternatives, b.symbols[s]? = some (.nonTerminal name alternatives)) ∨
      b.symbols[s]? = some (.terminal name) := by
  obtain ⟨symbol, hs, hcalled⟩ := exists_of_index? h
  cases symbol with
  | epsilon => exact Or.inl (isReserved_iff.mp (by rw [isReserved, hcalled]; rfl))
  | endMark => exact Or.inl (isReserved_iff.mp (by rw [isReserved, hcalled, Bool.or_true]))
  | terminal name' =>
    obtain rfl : name' = name := of_decide_eq_true hcalled
    exact Or.inr (Or.inr hs)
  | nonTerminal name' alternatives =>
    obtain rfl : name' = name := of_decide_eq_true hcalled
    exact Or.inr (Or.inl ⟨alternatives, hs⟩)

/-- A left side that is there keeps its number. -/
theorem addNonTerminal_of_index? {alternatives : List (List SymbolId)}
    (h : b.index? left = some s) (hs : b.symbols[s]? = some (.nonTerminal left alternatives)) :
    b.addNonTerminal left = .ok (b, s) := by
  rw [addNonTerminal, declare, h]
  dsimp only
  rw [hs]
  rfl

/-! ## What a builder has recorded -/

/-- The builder has the non-terminals `lefts`, the terminals among `names`, and of each non-terminal
the alternatives `written` so far. -/
structure Records (b : Builder) (lefts names : List String) (written : String → Alternatives) :
    Prop where
  reached : b.Reached
  start_eq : b.start = none
  nonTerminal_iff : ∀ name, (∃ alternatives, .nonTerminal name alternatives ∈ b.symbols) ↔
    name ∈ lefts
  terminal_iff : ∀ name, .terminal name ∈ b.symbols ↔
    name ∈ names ∧ name ∉ reservedNames ∧ name ∉ lefts
  alternatives : ∀ name alternatives, .nonTerminal name alternatives ∈ b.symbols →
    List.Forall₂ (Stands b.index?) (written name) alternatives

theorem records_empty : empty.Records [] [] fun _ => [] where
  reached := ⟨[], rfl⟩
  start_eq := rfl
  nonTerminal_iff name := by simp [empty]
  terminal_iff name := by simp [empty]
  alternatives name alternatives h := by simp [empty] at h

namespace Records

variable (hb : b.Records lefts names written)

include hb

/-- A name without a number is new. -/
theorem free (h : b.index? name = none) :
    name ∉ reservedNames ∧ name ∉ lefts ∧ name ∉ names := by
  have hnone := List.findIdx?_eq_none_iff.mp h
  have hcoherent := hb.reached.coherent
  have hreserved : name ∉ reservedNames := by
    intro hmem
    have hepsilon := hnone _ (List.mem_of_getElem? hcoherent.symbol_epsilon)
    have hendMark := hnone _ (List.mem_of_getElem? hcoherent.symbol_endMark)
    have hcalled := isReserved_iff.mpr hmem
    rw [isReserved, hepsilon, hendMark] at hcalled
    exact Bool.false_ne_true hcalled
  have hlefts : name ∉ lefts := by
    intro hmem
    obtain ⟨alternatives, halternatives⟩ := (hb.nonTerminal_iff name).mpr hmem
    exact absurd (Symbol.isCalled_name (.nonTerminal name alternatives))
      (Bool.eq_false_iff.mp (hnone _ halternatives))
  refine ⟨hreserved, hlefts, fun hmem => ?_⟩
  have hterminal := (hb.terminal_iff name).mpr ⟨hmem, hreserved, hlefts⟩
  exact absurd (Symbol.isCalled_name (.terminal name)) (Bool.eq_false_iff.mp (hnone _ hterminal))

/-- A left side has its number. -/
theorem exists_index?_of_left (h : left ∈ lefts) : ∃ s alternatives,
    b.symbols[s]? = some (.nonTerminal left alternatives) ∧ b.index? left = some s := by
  obtain ⟨alternatives, halternatives⟩ := (hb.nonTerminal_iff left).mpr h
  obtain ⟨s, hs, hindex⟩ := hb.reached.coherent.index?_of_mem halternatives
  exact ⟨s, alternatives, hs, hindex⟩

omit hb in
/-- **A left side is declared**, before anything is mentioned. -/
theorem addNonTerminal (hb : b.Records lefts [] fun _ => []) (hleft : left ∉ reservedNames) :
    ∃ b' s, b.addNonTerminal left = .ok (b', s) ∧ b'.Records (lefts ++ [left]) [] fun _ => [] := by
  cases hindex : b.index? left with
  | none =>
    have hadd : b.addNonTerminal left =
        .ok ({ b with symbols := b.symbols ++ [.nonTerminal left []] }, b.symbols.length) := by
      rw [Builder.addNonTerminal, declare, hindex]
    refine ⟨_, _, hadd, ?_, hb.start_eq, fun name => ?_, fun name => ?_, ?_⟩
    · exact hb.reached.edit (e := .nonTerminal left) (by rw [Builder.edit, hadd]; rfl)
    · simp [exists_or, hb.nonTerminal_iff]
    · simp [hb.terminal_iff]
    · intro name alternatives h
      rcases List.mem_append.mp h with h | h
      · obtain rfl := List.forall₂_nil_left_iff.mp (hb.alternatives name alternatives h)
        exact .nil
      · obtain ⟨-, rfl⟩ := Symbol.nonTerminal.inj (List.mem_singleton.mp h)
        exact .nil
  | some s =>
    obtain ⟨alternatives, hs⟩ : ∃ alternatives,
        b.symbols[s]? = some (.nonTerminal left alternatives) := by
      refine ((reserved_or_exists_of_index? hindex).resolve_left hleft).resolve_right fun hs => ?_
      exact List.not_mem_nil ((hb.terminal_iff left).mp (List.mem_of_getElem? hs)).1
    have hmem : left ∈ lefts := (hb.nonTerminal_iff left).mp ⟨_, List.mem_of_getElem? hs⟩
    refine ⟨b, s, addNonTerminal_of_index? hindex hs, hb.reached, hb.start_eq, fun name => ?_,
      fun name => ?_, hb.alternatives⟩
    · rw [hb.nonTerminal_iff, List.mem_append, List.mem_singleton]
      exact ⟨Or.inl, fun h => h.elim id fun heq => heq ▸ hmem⟩
    · simp [hb.terminal_iff]

/-! ### Mentioning names -/

/-- **A name is mentioned**: it has a number then, and the others keep theirs. -/
theorem mention (name : String) : ∃ b' s, b.mention name = .ok (b', s) ∧
    b'.Records lefts (names ++ [name]) written ∧ Keeps b.index? b'.index? ∧
      b'.index? name = some s := by
  cases hindex : b.index? name with
  | none =>
    obtain ⟨hreserved, hlefts, hnames⟩ := hb.free hindex
    have hadd : b.addTerminal name =
        .ok ({ b with symbols := b.symbols ++ [.terminal name] }, b.symbols.length) := by
      rw [addTerminal, declare, hindex]
    have hkeeps : Keeps b.index? (index? { b with symbols := b.symbols ++ [.terminal name] }) :=
      fun _ _ h => Symbol.index?_append_of_some h
    refine ⟨_, _, by rw [Builder.mention, hindex]; exact hadd, ?_, hkeeps, ?_⟩
    · refine ⟨?_, hb.start_eq, fun name' => ?_, fun name' => ?_, fun name' alternatives h => ?_⟩
      · exact hb.reached.edit (e := .terminal name) (by rw [Builder.edit, hadd]; rfl)
      · simp [hb.nonTerminal_iff]
      · rw [List.mem_append, hb.terminal_iff, List.mem_singleton, Symbol.terminal.injEq,
          List.mem_append, List.mem_singleton, or_and_right]
        exact or_congr_right ⟨fun h => ⟨h, h ▸ hreserved, h ▸ hlefts⟩, And.left⟩
      · have hold := (List.mem_append.mp h).resolve_right (by simp)
        exact (hb.alternatives name' alternatives hold).imp fun _ _ => .of_keeps hkeeps
    · exact Symbol.index?_append_of_none hindex (Symbol.isCalled_name (.terminal name))
  | some s =>
    refine ⟨b, s, by rw [Builder.mention, hindex], ?_, fun _ _ h => h, hindex⟩
    refine ⟨hb.reached, hb.start_eq, hb.nonTerminal_iff, fun name' => ?_, hb.alternatives⟩
    rw [hb.terminal_iff, List.mem_append, List.mem_singleton, or_and_right]
    refine ⟨Or.inl, fun h => h.elim id ?_⟩
    -- the name itself is mentioned already, if it is that of a terminal
    rintro ⟨rfl, hreserved, hlefts⟩
    refine (hb.terminal_iff name').mp ?_
    rcases (reserved_or_exists_of_index? hindex).resolve_left hreserved with ⟨alternatives, hs⟩ | hs
    · exact absurd ((hb.nonTerminal_iff name').mp ⟨_, List.mem_of_getElem? hs⟩) hlefts
    · exact List.mem_of_getElem? hs

/-- **A sequence of names is mentioned.** -/
theorem mentionAll (new : List String) : ∃ b' right, b.mentionAll new = .ok (b', right) ∧
    b'.Records lefts (names ++ new) written ∧ Keeps b.index? b'.index? ∧
      new.map b'.index? = right.map some := by
  induction new generalizing b names with
  | nil => exact ⟨b, [], rfl, by rwa [List.append_nil], fun _ _ h => h, rfl⟩
  | cons name new ih =>
    obtain ⟨b₁, s, hmention, hb₁, hkeeps, hs⟩ := hb.mention name
    obtain ⟨b', right, hall, hb', hkeeps', hright⟩ := ih hb₁
    refine ⟨b', s :: right, ?_, by rwa [List.append_assoc] at hb', ?_, ?_⟩
    · rw [Builder.mentionAll, hmention]
      change (b₁.mentionAll new >>= _) = _
      rw [hall]
      rfl
    · exact fun name s h => hkeeps' name s (hkeeps name s h)
    · rw [List.map_cons, List.map_cons, hright, hkeeps' name s hs]

/-! ### Adding alternatives -/

omit hb in
/-- A sequence of known symbols can be stored as an alternative; for no symbol the empty string is
stored. -/
theorem exists_addProduction_eq_ok {alternatives : List (List SymbolId)} {new : List String}
    {right : List SymbolId} (hs : b.symbols[s]? = some (.nonTerminal left alternatives))
    (hright : new.map b.index? = right.map some) : ∃ stored, Stands b.index? new stored ∧
      b.addProduction s right =
        .ok { b with symbols := b.symbols.modify s (withAlternative stored) } := by
  have hlt : ∀ t ∈ right, t < b.symbols.length := by
    intro t ht
    obtain ⟨name, -, hname⟩ := List.mem_map.mp (hright ▸ List.mem_map_of_mem (f := some) ht)
    obtain ⟨symbol, hsymbol, -⟩ := exists_of_index? hname
    exact (List.getElem?_eq_some_iff.mp hsymbol).1
  refine ⟨if right.isEmpty then [epsilonId] else right, ?_, ?_⟩
  · cases right with
    | nil => exact Or.inl ⟨List.map_eq_nil_iff.mp hright, rfl⟩
    | cons t right =>
      refine Or.inr ⟨?_, hright⟩
      rintro rfl
      exact nomatch hright
  · have hfind : (right.find? fun t => b.symbols.length ≤ t) = none :=
      List.find?_eq_none.mpr fun t ht => by simpa using hlt t ht
    rw [addProduction, hfind]
    dsimp only
    rw [requireNonTerminal, hs]

/-- A stored alternative is recorded of the left side, and nothing else is. -/
theorem modify {alternatives : List (List SymbolId)} {new : List String} {stored : List SymbolId}
    (hs : b.symbols[s]? = some (.nonTerminal left alternatives))
    (hstored : Stands b.index? new stored)
    (hreached : Reached { b with symbols := b.symbols.modify s (withAlternative stored) }) :
    Records { b with symbols := b.symbols.modify s (withAlternative stored) } lefts names
      fun name => written name ++ if name = left then [new] else [] := by
  have hkeeps : Keeps b.index?
      (index? { b with symbols := b.symbols.modify s (withAlternative stored) }) :=
    fun name t h => (Symbol.index?_modify s stored).trans h
  refine ⟨hreached, hb.start_eq, fun name => ?_, fun name => ?_, fun name rights h => ?_⟩
  · exact Symbol.exists_nonTerminal_mem_modify_iff.trans (hb.nonTerminal_iff name)
  · exact Symbol.terminal_mem_modify_iff.trans (hb.terminal_iff name)
  · obtain ⟨t, symbol, ht, hsymbol⟩ := Symbol.mem_modify_iff.mp h
    split at hsymbol
    · next heq =>
      subst heq
      obtain rfl := Option.some.inj (hs.symm.trans ht)
      obtain ⟨rfl, rfl⟩ := Symbol.nonTerminal.inj hsymbol
      have hold := hb.alternatives _ _ (List.mem_of_getElem? hs)
      rw [if_pos rfl]
      exact (List.rel_append hold (.cons hstored .nil)).imp fun _ _ => .of_keeps hkeeps
    · next hne =>
      subst hsymbol
      have hname : name ≠ left := by
        rintro rfl
        have hindex : b.index? name = some s := hb.reached.coherent.index_name hs
        exact hne (Option.some.inj (hindex.symm.trans (hb.reached.coherent.index_name ht)))
      rw [if_neg hname, List.append_nil]
      exact (hb.alternatives name rights (List.mem_of_getElem? ht)).imp fun _ _ => .of_keeps hkeeps

/-- **A left side gets one more alternative.** -/
theorem addAlternative (hleft : left ∈ lefts) (new : List String) :
    ∃ b', b.addAlternative left new = .ok b' ∧ b'.Records lefts (names ++ new)
      fun name => written name ++ if name = left then [new] else [] := by
  obtain ⟨b₁, right, hmention, hb₁, -, hright⟩ := hb.mentionAll new
  obtain ⟨s, alternatives, hs, hindex⟩ := hb₁.exists_index?_of_left hleft
  obtain ⟨stored, hstored, hadd⟩ := exists_addProduction_eq_ok hs hright
  refine ⟨_, ?_, hb₁.modify hs hstored (hb₁.reached.edit (e := .production s right) hadd)⟩
  rw [Builder.addAlternative, hmention]
  change (b₁.addNonTerminal left >>= _) = _
  rw [addNonTerminal_of_index? hindex hs]
  exact hadd

end Records

/-! ### All rules -/

/-- What the rules that are done leave to a builder whose left sides are declared. -/
def HoldsRules (lefts : List String) (done : List Rule) (b : Builder) : Prop :=
  b.Records lefts (done.flatMap fun rule => rule.alternatives.flatten) (alternativesIn done)

/-- **The alternatives of a rule are added.** -/
theorem HoldsRules.addRule {done : List Rule} (hb : HoldsRules lefts done b)
    (hleft : rule.left ∈ lefts) :
    ∃ b', b.addRule rule = .ok b' ∧ HoldsRules lefts (done ++ [rule]) b' := by
  let holds (alternatives : Alternatives) (b : Builder) : Prop :=
    b.Records lefts ((done.flatMap fun rule => rule.alternatives.flatten) ++ alternatives.flatten)
      fun name => alternativesIn done name ++ if name = rule.left then alternatives else []
  have hstart : holds [] b := by
    simp only [holds, List.flatten_nil, List.append_nil, ite_self]
    exact hb
  have hstep : ∀ names ∈ rule.alternatives, ∀ alternatives b, holds alternatives b →
      ∃ b', b.addAlternative rule.left names = .ok b' ∧ holds (alternatives ++ [names]) b' := by
    intro names _ alternatives b hholds
    obtain ⟨b', hadd, hb'⟩ := hholds.addAlternative hleft names
    have hwritten : (fun name => (alternativesIn done name ++
          if name = rule.left then alternatives else []) ++
            if name = rule.left then [names] else []) =
        fun name => alternativesIn done name ++
          if name = rule.left then alternatives ++ [names] else [] := by
      funext name
      split <;> simp
    rw [hwritten, List.append_assoc] at hb'
    exact ⟨b', hadd, by simpa [holds] using hb'⟩
  obtain ⟨b', hadd, hb'⟩ := exists_foldlM_eq_ok hstart hstep
  refine ⟨b', hadd, ?_⟩
  have hwritten : (fun name => alternativesIn done name ++
      if name = rule.left then rule.alternatives else []) = alternativesIn (done ++ [rule]) := by
    funext name
    rw [alternativesIn_append_singleton]
  rw [HoldsRules, ← hwritten, List.flatMap_append, List.flatMap_singleton]
  exact hb'

/-- **The left sides are declared, and then all alternatives are added.** -/
theorem exists_holdsRules (hlefts : ∀ rule ∈ rules, rule.left ∉ reservedNames) :
    ∃ b b', declareLefts rules = .ok b ∧ rules.foldlM Builder.addRule b = .ok b' ∧
      HoldsRules (rules.map Rule.left) rules b' := by
  let holds (done : List Rule) (b : Builder) : Prop :=
    b.Records (done.map Rule.left) [] fun _ => []
  have hempty : holds [] empty := records_empty
  have hdeclare : ∀ rule ∈ rules, ∀ done b, holds done b →
      ∃ b', (b.addNonTerminal rule.left).map (·.1) = .ok b' ∧ holds (done ++ [rule]) b' := by
    intro rule hrule done b hb
    obtain ⟨b', s, hadd, hb'⟩ := hb.addNonTerminal (hlefts rule hrule)
    exact ⟨b', by rw [hadd]; rfl, by simpa [holds] using hb'⟩
  obtain ⟨b, hb, hrecords⟩ := exists_foldlM_eq_ok hempty hdeclare
  rw [List.nil_append] at hrecords
  have hnone : HoldsRules (rules.map Rule.left) [] b := hrecords
  obtain ⟨b', hb', hholds⟩ := exists_foldlM_eq_ok hnone fun rule hrule done b hdone =>
    hdone.addRule (List.mem_map_of_mem hrule)
  exact ⟨b, b', hb, hb', hholds⟩

end Builder

/-! ## The grammar that rules say -/

/-- A name is written somewhere in the alternatives of the rule. -/
def Rule.Mentions (rule : Rule) (name : String) : Prop :=
  ∃ names ∈ rule.alternatives, name ∈ names

/-- What the rules say the grammar is. -/
structure Grammar.Says (g : Grammar) (rules : List Rule) : Prop where
  /-- The non-terminals are the left sides. -/
  nonTerminal_iff : ∀ name, (∃ s, g.isNonTerminal s ∧ g.nameOf s = name) ↔
    ∃ rule ∈ rules, rule.left = name
  /-- The terminals are the other names, but for the reserved ones. -/
  terminal_iff : ∀ name, (∃ s, g.isTerminal s ∧ g.nameOf s = name) ↔
    (∃ rule ∈ rules, rule.Mentions name) ∧ name ∉ reservedNames ∧ ∀ rule ∈ rules, rule.left ≠ name
  /-- Each non-terminal has the alternatives of its rules, in their order. -/
  alternatives : ∀ s, g.isNonTerminal s → ∃ rights, g.alternatives s = .ok rights ∧
    List.Forall₂ (Stands g.index?) (alternativesIn rules (g.nameOf s)) rights
  /-- The start symbol is the left side that mentions the end mark. -/
  start_marked : ∀ rule ∈ rules, rule.Mentions Symbol.endMarkName → rule.left = g.nameOf g.start
  /-- It is the first left side when none does. -/
  start_first : (∀ rule ∈ rules, ¬ rule.Mentions Symbol.endMarkName) →
    rules.head?.map Rule.left = some (g.nameOf g.start)

/-- `start` is the name of the start symbol. -/
structure IsStart (rules : List Rule) (start : String) : Prop where
  mem : ∃ rule ∈ rules, rule.left = start
  marked : ∀ rule ∈ rules, rule.Mentions Symbol.endMarkName → rule.left = start
  first : (∀ rule ∈ rules, ¬ rule.Mentions Symbol.endMarkName) →
    rules.head?.map Rule.left = some start

namespace Grammar

theorem exists_isNonTerminal_iff : (∃ s, g.isNonTerminal s ∧ g.nameOf s = name) ↔
    ∃ alternatives, .nonTerminal name alternatives ∈ g.symbols := by
  constructor
  · rintro ⟨s, hs, rfl⟩
    obtain ⟨name, alternatives, hs⟩ := isNonTerminal_iff.mp hs
    refine ⟨alternatives, ?_⟩
    rw [nameOf, name?, hs]
    exact List.mem_of_getElem? hs
  · rintro ⟨alternatives, h⟩
    obtain ⟨s, hs⟩ := List.getElem?_of_mem h
    refine ⟨s, isNonTerminal_iff.mpr ⟨name, alternatives, hs⟩, ?_⟩
    rw [nameOf, name?, symbol?, hs]
    rfl

theorem exists_isTerminal_iff : (∃ s, g.isTerminal s ∧ g.nameOf s = name) ↔
    .terminal name ∈ g.symbols := by
  constructor
  · rintro ⟨s, hs, rfl⟩
    rw [isTerminal] at hs
    rw [nameOf, name?]
    cases hsymbol : g.symbol? s with
    | none => rw [hsymbol] at hs; exact absurd hs Bool.false_ne_true
    | some symbol =>
      rw [hsymbol] at hs
      cases symbol with
      | terminal name => exact List.mem_of_getElem? hsymbol
      | _ => exact absurd hs Bool.false_ne_true
  · intro h
    obtain ⟨s, hs⟩ := List.getElem?_of_mem h
    refine ⟨s, ?_, ?_⟩
    · rw [isTerminal, symbol?, hs]
      rfl
    · rw [nameOf, name?, symbol?, hs]
      rfl

end Grammar

/-- **What a builder has recorded of the rules, its grammar is.** -/
theorem Builder.HoldsRules.says {start : String} {alternatives : List (List SymbolId)}
    {productions : List Production} (hb : HoldsRules (rules.map Rule.left) rules b)
    (hs : b.symbols[s]? = some (.nonTerminal start alternatives)) (hstart : IsStart rules start) :
    Grammar.Says ⟨b.symbols, s, productions⟩ rules := by
  have hname : Grammar.nameOf ⟨b.symbols, s, productions⟩ s = start := by
    rw [Grammar.nameOf, Grammar.name?, Grammar.symbol?, hs]
    rfl
  constructor
  case nonTerminal_iff =>
    intro name
    rw [Grammar.exists_isNonTerminal_iff, hb.nonTerminal_iff, List.mem_map]
  case terminal_iff =>
    intro name
    rw [Grammar.exists_isTerminal_iff, hb.terminal_iff]
    simp [Rule.Mentions]
  case alternatives =>
    intro t ht
    obtain ⟨name, rights, ht⟩ := Grammar.isNonTerminal_iff.mp ht
    refine ⟨rights, ?_, ?_⟩
    · rw [Grammar.alternatives, Grammar.symbol, ht]
    · rw [Grammar.nameOf, Grammar.name?, ht]
      exact hb.alternatives name rights (List.mem_of_getElem? ht)
  case start_marked => exact fun rule hrule hmentions =>
    (hstart.marked rule hrule hmentions).trans hname.symm
  case start_first => exact fun hnone => (hstart.first hnone).trans (congrArg some hname.symm)

open Builder in
/-- With all rules recorded no non-terminal lacks alternatives, so the builder gives a grammar. -/
theorem Builder.HoldsRules.build_eq_ok (hb : HoldsRules (rules.map Rule.left) rules b)
    (hrules : ∀ rule ∈ rules, rule.alternatives ≠ []) (s : SymbolId) :
    Builder.build { b with start := some s } =
      .ok ⟨b.symbols, s, numberedProductions b.symbols⟩ := by
  have hfull : ((nonTerminalsOf b.symbols).find? fun nt => nt.alternatives.isEmpty) = none := by
    refine List.find?_eq_none.mpr fun nt hnt hnil => ?_
    have hmem := List.mem_of_getElem? (mem_nonTerminalsOf.mp hnt)
    obtain ⟨rule, hrule, hleft⟩ := List.mem_map.mp ((hb.nonTerminal_iff nt.name).mp ⟨_, hmem⟩)
    have hwritten := hb.alternatives nt.name nt.alternatives hmem
    rw [List.isEmpty_iff.mp hnil, List.forall₂_nil_right_iff] at hwritten
    exact alternativesIn_ne_nil hrule hleft (hrules rule hrule) hwritten
  rw [build]
  dsimp only
  rw [hfull]

open Builder in
/-- **Rules with one start symbol make the grammar that they say.** -/
theorem Grammar.exists_ofRules_eq_ok {start : String}
    (hrules : ∀ rule ∈ rules, rule.left ∉ reservedNames ∧ rule.alternatives ≠ [])
    (hname : startName? rules = .ok (some start)) (hstart : IsStart rules start) :
    ∃ g, Grammar.ofRules rules = .ok g ∧ g.Built ∧ g.Says rules := by
  obtain ⟨b₁, b, hdeclare, hadd, hb⟩ := exists_holdsRules fun rule hrule => (hrules rule hrule).1
  have hmem : start ∈ rules.map Rule.left := List.mem_map.mpr hstart.mem
  obtain ⟨s, alternatives, hs, hindex⟩ := hb.exists_index?_of_left hmem
  have hset : b.setStart s = .ok { b with start := some s } := by
    rw [setStart, requireNonTerminal, hs]
  have hbuild := hb.build_eq_ok (fun rule hrule => (hrules rule hrule).2) s
  refine ⟨⟨b.symbols, s, numberedProductions b.symbols⟩, ?_, ?_, ?_⟩
  · rw [ofRules, hname]
    change (declareLefts rules >>= _) = _
    rw [hdeclare]
    change (rules.foldlM Builder.addRule b₁ >>= _) = _
    rw [hadd]
    change ((b.setStartName (some start)) >>= _) = _
    rw [setStartName, addNonTerminal_of_index? hindex hs]
    change ((b.setStart s) >>= _) = _
    rw [hset]
    exact hbuild
  · obtain ⟨edits, hedits⟩ := hb.reached.edit (e := .start s) hset
    exact ⟨edits, hedits ▸ hbuild⟩
  · exact hb.says hs hstart

/-! ## The start symbol -/

theorem Rule.mentionsEnd_iff : rule.mentionsEnd ↔ rule.Mentions Symbol.endMarkName := by
  simp [mentionsEnd, Mentions]

/-- Two left sides mention the end mark. -/
def MarkedTwice (rules : List Rule) : Prop :=
  ∃ rule ∈ rules, ∃ rule' ∈ rules, rule.Mentions Symbol.endMarkName ∧
    rule'.Mentions Symbol.endMarkName ∧ rule.left ≠ rule'.left

/-- Of the rules that mention the end mark, `first` comes first, and `second` is the first one with
another left side. -/
def FirstMarks (rules : List Rule) (first second : Rule) : Prop :=
  ∃ before between after, rules = before ++ first :: (between ++ second :: after) ∧
    (∀ rule ∈ before, ¬ rule.Mentions Symbol.endMarkName) ∧
    first.Mentions Symbol.endMarkName ∧
    (∀ rule ∈ between, rule.Mentions Symbol.endMarkName → rule.left = first.left) ∧
    second.Mentions Symbol.endMarkName ∧ second.left ≠ first.left

/-- **The start symbol is found**, unless two left sides mention the end mark. -/
theorem startName?_cases (rules : List Rule) :
    (∃ first second, FirstMarks rules first second ∧
      startName? rules = .error (.multipleStartSymbols first.left second.left)) ∨
    (rules = [] ∧ startName? rules = .ok none) ∨
    ∃ start, IsStart rules start ∧ startName? rules = .ok (some start) := by
  rw [startName?]
  split
  · next hnone =>
    have hunmarked : ∀ rule ∈ rules, ¬ rule.Mentions Symbol.endMarkName := fun rule hrule h =>
      List.filter_eq_nil_iff.mp hnone rule hrule (Rule.mentionsEnd_iff.mpr h)
    cases rules with
    | nil => exact Or.inr (Or.inl ⟨rfl, rfl⟩)
    | cons rule rules =>
      refine Or.inr (Or.inr ⟨rule.left, ⟨⟨rule, List.mem_cons_self, rfl⟩, ?_, fun _ => rfl⟩, rfl⟩)
      exact fun rule' hrule' h => absurd h (hunmarked rule' hrule')
  · next first others hmarked =>
    obtain ⟨before, rest, rfl, hbefore, hfirst, rfl⟩ := List.filter_eq_cons_iff.mp hmarked
    have hunmarked : ∀ rule ∈ before, ¬ rule.Mentions Symbol.endMarkName := fun rule hrule h =>
      hbefore rule hrule (Rule.mentionsEnd_iff.mpr h)
    have hmarks := Rule.mentionsEnd_iff.mp hfirst
    split
    · next second hfind =>
      rw [List.find?_filter, List.find?_eq_some_iff_append] at hfind
      obtain ⟨hsecond, between, after, rfl, hbetween⟩ := hfind
      obtain ⟨hsecond, hne⟩ : second.mentionsEnd ∧ second.left ≠ first.left := by
        simpa using hsecond
      refine Or.inl ⟨first, second, ⟨before, between, after, rfl, hunmarked, hmarks,
        fun rule hrule h => ?_, Rule.mentionsEnd_iff.mp hsecond, hne⟩, rfl⟩
      simpa [Rule.mentionsEnd_iff.mpr h] using hbetween rule hrule
    · next hfind =>
      rw [List.find?_filter, List.find?_eq_none] at hfind
      refine Or.inr (Or.inr ⟨first.left, ⟨⟨first, by simp, rfl⟩, fun rule hrule h => ?_,
        fun hnone => absurd hmarks (hnone first (by simp))⟩, rfl⟩)
      rcases List.mem_append.mp hrule with hrule | hrule
      · exact absurd h (hunmarked rule hrule)
      rcases List.mem_cons.mp hrule with rfl | hrule
      · rfl
      · simpa [Rule.mentionsEnd_iff.mpr h] using hfind rule hrule

theorem FirstMarks.markedTwice {first second : Rule} (h : FirstMarks rules first second) :
    MarkedTwice rules := by
  obtain ⟨before, between, after, rfl, -, hfirst, -, hsecond, hne⟩ := h
  exact ⟨first, by simp, second, by simp, hfirst, hsecond, hne.symm⟩

theorem IsStart.not_markedTwice {start : String} (h : IsStart rules start) :
    ¬ MarkedTwice rules := by
  rintro ⟨rule, hrule, rule', hrule', hmarks, hmarks', hne⟩
  exact hne ((h.marked rule hrule hmarks).trans (h.marked rule' hrule' hmarks').symm)

/-! ## The text -/

namespace Grammar

variable {text : String}

theorem ofText_eq_error_of_readRules {e : GrammarError} (h : readRules text = .error e) :
    ofText text = .error e := by
  rw [ofText, h]
  rfl

theorem ofText_eq_of_readRules (h : readRules text = .ok rules) : ofText text = ofRules rules := by
  rw [ofText, h]
  rfl

theorem ofRules_eq_error_of_startName? {e : GrammarError} (h : startName? rules = .error e) :
    ofRules rules = .error e := by
  rw [ofRules, h]
  rfl

/-- **What a text is loaded as**: a fault, two start symbols, nothing, or the grammar it says. -/
theorem ofText_cases (text : String) :
    (∃ i reason, Faulty (Text.lines text.toList) i ∧
      (∀ j < i, ¬ Faulty (Text.lines text.toList) j) ∧
        ofText text = .error (.malformed (i + 1) reason)) ∨
    ∃ rules, Describes none (Text.lines text.toList) rules ∧
      (∀ i, ¬ Faulty (Text.lines text.toList) i) ∧
      ((∃ first second, FirstMarks rules first second ∧
          ofText text = .error (.multipleStartSymbols first.left second.left)) ∨
        (rules = [] ∧ ofText text = .error .missingStartSymbol) ∨
        (rules ≠ [] ∧ ¬ MarkedTwice rules ∧
          ∃ g, ofText text = .ok g ∧ g.Built ∧ g.Says rules)) := by
  rcases readRules_cases text with ⟨rules, hrules, hnone, hread⟩ | ⟨i, reason, hi, hfirst, hread⟩
  · refine Or.inr ⟨rules, hrules, hnone, ?_⟩
    rw [ofText_eq_of_readRules hread]
    rcases startName?_cases rules with
      ⟨first, second, hmarks, hstart⟩ | ⟨rfl, -⟩ | ⟨start, hstart, hname⟩
    · exact Or.inl ⟨first, second, hmarks, ofRules_eq_error_of_startName? hstart⟩
    · exact Or.inr (Or.inl ⟨rfl, rfl⟩)
    · obtain ⟨rule, hrule, -⟩ := hstart.mem
      refine Or.inr (Or.inr ⟨List.ne_nil_of_mem hrule, hstart.not_markedTwice, ?_⟩)
      exact exists_ofRules_eq_ok (hrules.forall_rule nofun) hname hstart
  · exact Or.inl ⟨i, reason, hi, hfirst, ofText_eq_error_of_readRules hread⟩

/-- A grammar that is loaded is built. -/
theorem built_of_ofText (h : ofText text = .ok g) : g.Built := by
  rcases ofText_cases text with ⟨i, reason, -, -, hfault⟩ | ⟨rules, -, -, hcases⟩
  · exact nomatch hfault.symm.trans h
  · rcases hcases with ⟨first, second, -, htwo⟩ | ⟨-, hmissing⟩ | ⟨-, -, g', hok, hbuilt, -⟩
    · exact nomatch htwo.symm.trans h
    · exact nomatch hmissing.symm.trans h
    · obtain rfl := Except.ok.inj (hok.symm.trans h)
      exact hbuilt

/-- **The loader accepts its format and nothing else, and builds what the text says.**  The first
faulty line is reported with its number, counted from 1.  Without a fault the lines give rules; when
these mention the end mark under two left sides, the first two of them are reported, and when there
is no rule, that the start symbol is missing.  All other texts are loaded, as the grammar that their
rules say.  There are no other errors. -/
theorem ofText_exact (text : String) :
    (∀ i, Faulty (Text.lines text.toList) i → (∀ j < i, ¬ Faulty (Text.lines text.toList) j) →
      ∃ reason, ofText text = .error (.malformed (i + 1) reason)) ∧
    ((∀ i, ¬ Faulty (Text.lines text.toList) i) →
      ∃ rules, Describes none (Text.lines text.toList) rules ∧
        (MarkedTwice rules → ∃ first second, FirstMarks rules first second ∧
          ofText text = .error (.multipleStartSymbols first.left second.left)) ∧
        (¬ MarkedTwice rules → (∀ cs ∈ Text.lines text.toList, Blank cs) →
          ofText text = .error .missingStartSymbol) ∧
        (¬ MarkedTwice rules → (∃ cs ∈ Text.lines text.toList, ¬ Blank cs) →
          ∃ g, ofText text = .ok g ∧ g.Built ∧ g.Says rules)) ∧
    ∀ e, ofText text = .error e → (∃ number reason, e = .malformed number reason) ∨
      (∃ left left', e = .multipleStartSymbols left left') ∨ e = .missingStartSymbol := by
  rcases ofText_cases text with ⟨i, reason, hi, hfirst, hfault⟩ | ⟨rules, hrules, hnone, hcases⟩
  · refine ⟨fun j hj hfirst' => ?_, fun hnone => absurd hi (hnone i), fun e he => ?_⟩
    · have hle : i ≤ j := Nat.le_of_not_lt fun hlt => hfirst j hlt hj
      have hge : j ≤ i := Nat.le_of_not_lt fun hlt => hfirst' i hlt hi
      obtain rfl := Nat.le_antisymm hle hge
      exact ⟨reason, hfault⟩
    · obtain rfl := Except.error.inj (hfault.symm.trans he)
      exact Or.inl ⟨_, _, rfl⟩
  · refine ⟨fun i hi => absurd hi (hnone i), fun _ => ⟨rules, hrules, ?_⟩, fun e he => ?_⟩
    · rw [← hrules.eq_nil_iff]
      rcases hcases with ⟨first, second, hmarks, htwo⟩ | ⟨rfl, hmissing⟩ | ⟨hne, honce, hok⟩
      · have htwice := hmarks.markedTwice
        exact ⟨fun _ => ⟨first, second, hmarks, htwo⟩, fun h => absurd htwice h,
          fun h => absurd htwice h⟩
      · refine ⟨fun ⟨_, h, _⟩ => absurd h List.not_mem_nil, fun _ _ => hmissing, fun _ h => ?_⟩
        obtain ⟨cs, hcs, hblank⟩ := h
        exact absurd (hrules.eq_nil_iff.mp rfl cs hcs) hblank
      · exact ⟨fun h => absurd h honce, fun _ h => absurd h hne, fun _ _ => hok⟩
    · rcases hcases with ⟨first, second, -, htwo⟩ | ⟨-, hmissing⟩ | ⟨-, -, g, hok, -⟩
      · obtain rfl := Except.error.inj (htwo.symm.trans he)
        exact Or.inr (Or.inl ⟨_, _, rfl⟩)
      · obtain rfl := Except.error.inj (hmissing.symm.trans he)
        exact Or.inr (Or.inr rfl)
      · exact nomatch hok.symm.trans he

example : ofText "S -> a S b\n  | lambda" = .ok nested := rfl

end Grammar

end GrammarTables
