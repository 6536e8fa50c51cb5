import GrammarTables.Grammar.Registry
import GrammarTables.Proofs.Grammar.Ordinals

/-!
# Proofs/Grammar/Registry — the table of names never disagrees with the symbols

A registry is coherent when its builder is, the table finds what a search finds, and the
non-terminals carry their own numbers (`Registry.Coherent`).  **A call on a coherent registry does
what the same change does to its builder, and a call that fails leaves the registry as it was**
(`Coherent.edit`); so a history of calls is one of changes (`Coherent.after`), and what is known of
builders and of the grammars they build holds of registries.
-/

namespace GrammarTables

variable {α β : Type} {r r' : Registry} {b b' : Builder} {name : String} {s : SymbolId}
  {e : Builder.Edit} {edits : List Builder.Edit}

/-! ## Running a call -/

namespace Registering

theorem on_get_bind {f : Registry → Registering α} : on (get >>= f) r = on (f r) r :=
  rfl

/-- **Calls are taken apart one by one.** A call that fails leaves what was registered before it. -/
theorem on_bind {x : Registering α} {f : α → Registering β} : on (x >>= f) r =
    match x.on r with
    | (.ok a, r') => (f a).on r'
    | (.error e, r') => (.error e, r') := by
  change on (x >>= f) r = match x.run.run r with
    | (.ok a, r') => (f a).on r'
    | (.error e, r') => (.error e, r')
  rw [on, ExceptT.run_bind, StateT.run_bind]
  change (match x.run.run r with | (answer, r') => _) = _
  rcases x.run.run r with ⟨_ | a, r'⟩ <;> rfl

end Registering

/-! ## Symbols that grow -/

/-- The second symbol is the first one, perhaps with further alternatives. -/
def Symbol.Grows : Symbol → Symbol → Prop
  | nonTerminal name alternatives, symbol =>
    ∃ more, symbol = nonTerminal name (alternatives ++ more)
  | symbol, symbol' => symbol' = symbol

namespace Symbol

variable {symbol symbol' symbol'' : Symbol}

theorem Grows.refl (symbol : Symbol) : symbol.Grows symbol := by
  cases symbol with
  | nonTerminal name alternatives => exact ⟨[], by rw [List.append_nil]⟩
  | _ => rfl

theorem Grows.trans (h : symbol.Grows symbol') (h' : symbol'.Grows symbol'') :
    symbol.Grows symbol'' := by
  cases symbol with
  | nonTerminal name alternatives =>
    obtain ⟨more, rfl⟩ := h
    obtain ⟨more', rfl⟩ := h'
    exact ⟨more ++ more', by rw [List.append_assoc]⟩
  | _ =>
    obtain rfl := h
    exact h'

/-- An alternative more is the only change that an entry sees. -/
theorem grows_withAlternative (right : List SymbolId) (symbol : Symbol) :
    symbol.Grows (Builder.withAlternative right symbol) := by
  cases symbol with
  | nonTerminal name alternatives => exact ⟨[right], rfl⟩
  | _ => rfl

end Symbol

namespace Builder

/-- What a builder has at a number, a later one has there too. -/
def Grows (b b' : Builder) : Prop :=
  ∀ (s : SymbolId) (symbol : Symbol), b.symbols[s]? = some symbol →
    ∃ symbol', b'.symbols[s]? = some symbol' ∧ symbol.Grows symbol'

theorem Grows.refl (b : Builder) : b.Grows b := fun _ symbol hs =>
  ⟨symbol, hs, .refl symbol⟩

theorem Grows.trans {b'' : Builder} (h : b.Grows b') (h' : b'.Grows b'') : b.Grows b'' := by
  intro s symbol hs
  obtain ⟨symbol', hs', hgrows⟩ := h s symbol hs
  obtain ⟨symbol'', hs'', hgrows'⟩ := h' s symbol' hs'
  exact ⟨symbol'', hs'', hgrows.trans hgrows'⟩

/-- A declaration appends a symbol, or finds the one that is there. -/
theorem grows_of_declare {isKind : Symbol → Bool} {new : Symbol}
    (h : b.declare name isKind new = .ok (b', s)) : b.Grows b' := by
  rw [declare] at h
  split at h
  · obtain ⟨rfl, -⟩ := Prod.mk.inj (Except.ok.inj h)
    intro t symbol ht
    refine ⟨symbol, ?_, .refl symbol⟩
    rw [List.getElem?_append_left (List.getElem?_eq_some_iff.mp ht).1, ht]
  · split at h
    · obtain ⟨rfl, -⟩ := Prod.mk.inj (Except.ok.inj h)
      exact .refl b
    · cases h

/-- A production changes the entry of its left side, and this keeps its name and kind. -/
theorem grows_of_addProduction {left : SymbolId} {right : List SymbolId}
    (h : b.addProduction left right = .ok b') : b.Grows b' := by
  rw [addProduction] at h
  split at h
  · cases h
  · split at h
    · cases h
    · obtain rfl := Except.ok.inj h
      intro t symbol ht
      rw [List.getElem?_modify, ht]
      split
      · exact ⟨_, rfl, Symbol.grows_withAlternative _ symbol⟩
      · exact ⟨_, rfl, .refl symbol⟩

/-- The start symbol is registered beside the symbols. -/
theorem grows_of_setStart (h : b.setStart s = .ok b') : b.Grows b' := by
  rw [setStart] at h
  split at h
  · cases h
  · obtain rfl := Except.ok.inj h
    exact .refl b

/-- **A change keeps the symbols that are there.** -/
theorem grows_of_edit (h : b.edit e = .ok b') : b.Grows b' := by
  cases e with
  | terminal name =>
    obtain ⟨⟨c, t⟩, hc, rfl⟩ := exists_of_map_eq_ok h
    exact grows_of_declare hc
  | nonTerminal name =>
    obtain ⟨⟨c, t⟩, hc, rfl⟩ := exists_of_map_eq_ok h
    exact grows_of_declare hc
  | production left right => exact grows_of_addProduction h
  | start t => exact grows_of_setStart h

/-- A grammar has the symbols and the start symbol of its builder. -/
theorem symbols_of_build {g : Grammar} (h : b.build = .ok g) :
    g.symbols = b.symbols ∧ some g.start = b.start := by
  rw [build] at h
  split at h
  · cases h
  next start hstart =>
  split at h
  · cases h
  · obtain rfl := Except.ok.inj h
    exact ⟨rfl, hstart.symm⟩

/-- **A history keeps the symbols that are there.** -/
theorem grows_after (b : Builder) (edits : List Edit) : b.Grows (b.after edits) := by
  induction edits generalizing b with
  | nil => exact .refl b
  | cons e edits ih =>
    have hstep : b.Grows ((b.edit e).toOption.getD b) := by
      cases he : b.edit e with
      | ok b' => exact grows_of_edit he
      | error _ => exact .refl b
    exact hstep.trans (ih _)

end Builder

/-! ## Coherent registries -/

namespace Registry

/-- What every call on a registry keeps. -/
structure Coherent (r : Registry) : Prop where
  builder : r.builder.Coherent
  /-- The table finds what a search through the symbols finds. -/
  lookup_eq : ∀ name, r.names.lookup name = r.builder.index? name
  /-- A non-terminal carries its own number. -/
  index_eq : ∀ {s : SymbolId} {nt : NonTerminal}, r.entries[s]? = some (.nonTerminal nt) →
    nt.index = s

/-- The builder behind a registry has the entries without what the name table adds to them. -/
theorem getElem?_builder (s : SymbolId) :
    r.builder.symbols[s]? = r.entries[s]?.map Entry.symbol :=
  List.getElem?_map

theorem length_builder : r.builder.symbols.length = r.entries.length :=
  List.length_map _

/-- Names that are put in with one number are found with it. -/
theorem lookup_foldl_insert {new : List String} {names : NameTable} :
    (new.foldl (fun names name => names.insert name s) names).lookup name =
      if name ∈ new then some s else names.lookup name := by
  induction new generalizing names with
  | nil => rfl
  | cons other new ih =>
    rw [List.foldl_cons, ih]
    by_cases hother : name = other
    · subst hother
      simp
    · simp [hother]

/-- The reserved symbols are registered from the start, under all of their names. -/
theorem coherent_empty : empty.Coherent where
  builder := Builder.coherent_empty
  lookup_eq name := by
    have hsearch : empty.builder.index? name = if Symbol.isCalled name .epsilon then some epsilonId
        else if Symbol.isCalled name .endMark then some endMarkId else none := by
      rw [Builder.index?, Symbol.index?]
      change List.findIdx? _ [Symbol.epsilon, Symbol.endMark] = _
      rw [List.findIdx?_cons, List.findIdx?_singleton]
      split
      · rfl
      · split <;> rfl
    rw [hsearch, empty]
    by_cases hendMark : name = Symbol.endMarkName
    · subst hendMark
      exact AList.lookup_insert _
    · rw [AList.lookup_insert_ne hendMark, lookup_foldl_insert]
      have hnot : ¬ Symbol.isCalled name .endMark := fun h => hendMark (of_decide_eq_true h).symm
      rw [if_neg hnot]
      refine if_congr ?_ rfl (AList.lookup_empty _)
      simp [Symbol.isCalled]
  index_eq {s nt} h := by
    rcases s with _ | _ | s <;> cases h

/-- A call did what a change does to the builder, or it failed like the change and left the
registry as it was. -/
def Follows (r : Registry) (result : Except GrammarError α × Registry)
    (change : Except GrammarError (Builder × α)) : Prop :=
  (∃ b a r', change = .ok (b, a) ∧ result = (.ok a, r') ∧ r'.builder = b ∧ r'.Coherent) ∨
    ∃ err, change = .error err ∧ result = (.error err, r)

/-- The number that a declaration answers with may be ignored. -/
theorem Follows.discard {x : Registering α} {change : Except GrammarError (Builder × α)}
    (h : r.Follows (x.on r) change) :
    r.Follows (Registering.on (do let _ ← x) r) ((change.map (·.1)).map (·, ())) := by
  rw [Registering.on_bind]
  rcases h with ⟨b, a, r', rfl, hx, hr'⟩ | ⟨err, rfl, hx⟩
  · rw [hx]
    exact Or.inl ⟨b, (), r', rfl, rfl, hr'⟩
  · rw [hx]
    exact Or.inr ⟨err, rfl, rfl⟩

/-- A new entry at the end, under a name that is free. -/
theorem Coherent.append (h : r.Coherent) {entry : Entry} (hfree : r.builder.index? name = none)
    (hcalled : ∀ other, entry.symbol.isCalled other ↔ name = other)
    (hempty : ∀ nt, entry = .nonTerminal nt → nt.index = r.entries.length ∧ nt.alternatives = []) :
    Coherent ⟨r.entries ++ [entry], r.names.insert name r.entries.length, r.start⟩ := by
  have hsymbols : (r.entries ++ [entry]).map Entry.symbol = r.builder.symbols ++ [entry.symbol] :=
    List.map_append
  have hname : entry.symbol.name = name := ((hcalled _).mp (Symbol.isCalled_name _)).symm
  constructor
  case builder =>
    rw [Registry.builder, hsymbols]
    refine h.builder.append (hname ▸ hfree) fun name alternatives hnew => ?_
    cases entry with
    | nonTerminal nt =>
      obtain ⟨-, rfl⟩ := Symbol.nonTerminal.inj hnew
      exact (hempty nt rfl).2
    | _ => exact nomatch hnew
  case lookup_eq =>
    intro other
    rw [Registry.builder, Builder.index?, hsymbols]
    by_cases hother : name = other
    · subst hother
      rw [AList.lookup_insert, Symbol.index?_append_of_none hfree ((hcalled name).mpr rfl),
        length_builder]
    · rw [AList.lookup_insert_ne (Ne.symm hother), h.lookup_eq]
      exact (Symbol.index?_append_of_not_isCalled fun hc => hother ((hcalled other).mp hc)).symm
  case index_eq =>
    intro s nt hs
    rw [List.getElem?_append] at hs
    split at hs
    · exact h.index_eq hs
    · next hlt =>
      obtain ⟨hindex, heq⟩ := List.getElem?_eq_some_iff.mp hs
      rw [List.getElem_singleton] at heq
      rw [List.length_singleton] at hindex
      have hlength : r.entries.length = s := by omega
      exact (hempty nt heq).1.trans hlength

/-- **A declaration keeps entries and names in step.** A new name is put into the table together
with its entry, and a name that is there decides alone whether the call fails. -/
theorem Coherent.declare (h : r.Coherent) {isKind : Symbol → Bool} {new : SymbolId → Entry}
    {symbol : Symbol} (hsymbol : ∀ s, (new s).symbol = symbol)
    (hcalled : ∀ other, symbol.isCalled other ↔ name = other)
    (hempty : ∀ s nt, new s = .nonTerminal nt → nt.index = s ∧ nt.alternatives = []) :
    r.Follows ((declare name isKind new).on r) (r.builder.declare name isKind symbol) := by
  rw [Registry.declare, Registering.on_get_bind, Builder.declare, h.lookup_eq]
  cases hindex : r.builder.index? name with
  | none =>
    refine Or.inl ⟨⟨r.builder.symbols ++ [symbol], r.start⟩, r.entries.length,
      ⟨r.entries ++ [new r.entries.length], r.names.insert name r.entries.length, r.start⟩,
      ?_, rfl, ?_, ?_⟩
    · dsimp only
      rw [length_builder]
      rfl
    · simp [Registry.builder, hsymbol]
    · refine h.append hindex (fun other => ?_) (hempty _)
      rw [hsymbol]
      exact hcalled other
  | some s =>
    have hkind : (r.entries[s]?.any fun entry => isKind entry.symbol) =
        r.builder.symbols[s]?.any isKind := by
      rw [getElem?_builder, Option.any_map]
    dsimp only
    rw [hkind]
    split
    · exact Or.inl ⟨_, _, r, rfl, rfl, rfl, h⟩
    · exact Or.inr ⟨_, rfl, rfl⟩

/-- A registry requires of a number what its builder does. -/
theorem requireNonTerminal_on (s : SymbolId) :
    (requireNonTerminal s).on r = (r.builder.requireNonTerminal s, r) := by
  rw [requireNonTerminal, Registering.on_get_bind, Builder.requireNonTerminal, getElem?_builder]
  cases r.entries[s]? with
  | none => rfl
  | some entry => cases entry <;> rfl

theorem symbol_withAlternative (right : List SymbolId) (entry : Entry) :
    (entry.withAlternative right).symbol = Builder.withAlternative right entry.symbol := by
  cases entry <;> rfl

/-- Adding an alternative to an entry and forgetting the rest can be done in either order. -/
theorem map_symbol_modify (left : SymbolId) (right : List SymbolId) :
    (r.entries.modify left (Entry.withAlternative right)).map Entry.symbol =
      r.builder.symbols.modify left (Builder.withAlternative right) := by
  refine List.ext_getElem? fun i => ?_
  rw [List.getElem?_map, List.getElem?_modify, List.getElem?_modify, getElem?_builder]
  cases r.entries[i]? with
  | none => rfl
  | some entry =>
    change some (Entry.symbol (if left = i then _ else _)) = some (if left = i then _ else _)
    split
    · rw [symbol_withAlternative]
    · rfl

/-- One more alternative of one non-terminal. -/
theorem Coherent.modify (h : r.Coherent) (left : SymbolId) {right : List SymbolId}
    (hne : right ≠ []) (hlt : ∀ t ∈ right, t < r.entries.length) :
    Coherent { r with entries := r.entries.modify left (Entry.withAlternative right) } := by
  constructor
  case builder =>
    rw [Registry.builder, map_symbol_modify]
    exact h.builder.modify left hne fun t ht => length_builder ▸ hlt t ht
  case lookup_eq =>
    intro name
    rw [Registry.builder, Builder.index?, map_symbol_modify, Symbol.index?_modify]
    exact h.lookup_eq name
  case index_eq =>
    intro s nt hs
    rw [List.getElem?_modify] at hs
    obtain ⟨entry, hentry, heq⟩ := Option.map_eq_some_iff.mp hs
    split at heq
    · cases entry with
      | nonTerminal nt' =>
        obtain rfl := Entry.nonTerminal.inj heq
        exact (h.index_eq hentry : nt'.index = s)
      | _ => cases heq
    · exact h.index_eq (heq ▸ hentry)

/-- A production is checked and added through the numbers of its symbols, without the name table. -/
theorem Coherent.addProduction (h : r.Coherent) (left : SymbolId) (right : List SymbolId) :
    r.Follows ((addProduction left right).on r)
      ((r.builder.addProduction left right).map (·, ())) := by
  rw [Registry.addProduction, Registering.on_get_bind, Builder.addProduction, length_builder]
  cases hrange : right.find? fun s => r.entries.length ≤ s with
  | some s => exact Or.inr ⟨_, rfl, rfl⟩
  | none =>
    dsimp only
    rw [Registering.on_bind, requireNonTerminal_on]
    cases r.builder.requireNonTerminal left with
    | error err => exact Or.inr ⟨err, rfl, rfl⟩
    | ok _ =>
      refine Or.inl ⟨_, _, _, rfl, rfl, ?_, h.modify left ?_ fun t ht => ?_⟩
      · exact congrArg (Builder.mk · r.start) (map_symbol_modify left _)
      · cases right <;> simp
      · -- the empty alternative is stored as the empty string, which is in range too
        split at ht
        · obtain rfl := List.mem_singleton.mp ht
          exact length_builder ▸ (List.getElem?_eq_some_iff.mp h.builder.symbol_epsilon).1
        · simpa using List.find?_eq_none.mp hrange t ht

theorem Coherent.setStart (h : r.Coherent) (s : SymbolId) :
    r.Follows ((setStart s).on r) ((r.builder.setStart s).map (·, ())) := by
  rw [Registry.setStart, Registering.on_bind, requireNonTerminal_on, Builder.setStart]
  cases hs : r.builder.requireNonTerminal s with
  | error err => exact Or.inr ⟨err, rfl, rfl⟩
  | ok _ =>
    refine Or.inl ⟨_, _, _, rfl, rfl, rfl, ?_, h.lookup_eq, h.index_eq⟩
    exact h.builder.setStart (by rw [Builder.setStart, hs]; rfl)

/-- **A call on a coherent registry does what the change does to its builder, and one that fails
leaves the registry as it was.** -/
theorem Coherent.edit (h : r.Coherent) (e : Builder.Edit) :
    r.Follows ((edit e).on r) ((r.builder.edit e).map (·, ())) := by
  cases e with
  | terminal name =>
    rw [Registry.edit, Builder.edit, Builder.addTerminal, Registry.addTerminal]
    refine Follows.discard (h.declare (fun _ => rfl) (fun other => ?_) fun s nt hnt => ?_)
    · exact decide_eq_true_iff
    · exact Entry.noConfusion hnt
  | nonTerminal name =>
    rw [Registry.edit, Builder.edit, Builder.addNonTerminal, Registry.addNonTerminal]
    refine Follows.discard (h.declare (fun _ => rfl) (fun other => ?_) fun s nt hnt => ?_)
    · exact decide_eq_true_iff
    · obtain rfl := Entry.nonTerminal.inj hnt
      exact ⟨rfl, rfl⟩
  | production left right =>
    rw [Registry.edit, Builder.edit]
    exact h.addProduction left right
  | start s =>
    rw [Registry.edit, Builder.edit]
    exact h.setStart s

/-- **A history of calls is one of changes**, and keeps the registry coherent. -/
theorem Coherent.after (h : r.Coherent) (edits : List Builder.Edit) :
    (r.after edits).Coherent ∧ (r.after edits).builder = r.builder.after edits := by
  induction edits generalizing r with
  | nil => exact ⟨h, rfl⟩
  | cons e edits ih =>
    change (Registry.after ((Registry.edit e).on r).2 edits).Coherent ∧
      (Registry.after ((Registry.edit e).on r).2 edits).builder =
        Builder.after ((r.builder.edit e).toOption.getD r.builder) edits
    have hstep := h.edit e
    cases hb : r.builder.edit e with
    | ok b =>
      rw [hb] at hstep
      rcases hstep with ⟨c, _, r', heq, hr', hbuilder, hcoherent⟩ | ⟨_, heq, -⟩
      · obtain ⟨rfl, -⟩ := Prod.mk.inj (Except.ok.inj heq)
        rw [hr', ← hbuilder]
        exact ih hcoherent
      · exact nomatch heq
    | error err =>
      rw [hb] at hstep
      rcases hstep with ⟨_, _, _, heq, -⟩ | ⟨_, -, hr⟩
      · exact nomatch heq
      · rw [hr]
        exact ih h

/-- The non-terminals stand where the numbers that they carry say. -/
theorem Coherent.filterMap_nonTerminal? (h : r.Coherent) :
    r.entries.filterMap Entry.nonTerminal? = nonTerminalsOf r.builder.symbols := by
  rw [nonTerminalsOf, Registry.builder, List.zipIdx_map, List.filterMap_map]
  conv_lhs => rw [← List.zipIdx_map_fst 0 r.entries, List.filterMap_map]
  refine List.filterMap_congr fun numbered hs => ?_
  obtain ⟨entry, s⟩ := numbered
  have hentry : r.entries[s]? = some entry := List.mem_zipIdx_iff_getElem?.mp hs
  cases entry with
  | nonTerminal nt =>
    obtain rfl := h.index_eq hentry
    rfl
  | _ => rfl

/-- **A coherent registry and its builder build the same grammar.** -/
theorem Coherent.build_eq (h : r.Coherent) : r.build = r.builder.build := by
  rw [build, Builder.build, h.filterMap_nonTerminal?]
  rfl

end Registry

/-! ## What a history of calls leaves -/

/-- A symbol that is called `name` is found under it. -/
theorem Builder.Coherent.index?_of_isCalled (hb : b.Coherent) {symbol : Symbol}
    (hs : b.symbols[s]? = some symbol) (hname : symbol.isCalled name) : b.index? name = some s := by
  cases symbol with
  | epsilon =>
    -- the empty string is the first symbol, and a search for any of its names ends there
    obtain rfl : s = epsilonId :=
      Option.some.inj ((hb.index_name hs).symm.trans (hb.index_name hb.symbol_epsilon))
    obtain ⟨hlt, heq⟩ := List.getElem?_eq_some_iff.mp hs
    refine List.findIdx?_eq_some_iff_getElem.mpr ⟨hlt, heq ▸ hname, fun j hj => ?_⟩
    exact absurd hj (Nat.not_lt_zero j)
  | _ =>
    obtain rfl := of_decide_eq_true hname
    exact hb.index_name hs

namespace Registry

/-- What the rest of the program relies on without looking. -/
structure Consistent (r : Registry) : Prop where
  entry_epsilon : r.entries[epsilonId]? = some .epsilon
  entry_endMark : r.entries[endMarkId]? = some .endMark
  lookup_epsilon : ∀ name ∈ Symbol.epsilonName :: Symbol.epsilonAliases,
    r.names.lookup name = some epsilonId
  lookup_endMark : r.names.lookup Symbol.endMarkName = some endMarkId
  /-- A name is in the table with the number of the one symbol that it stands for. -/
  lookup_iff : ∀ {name : String} {s : SymbolId}, r.names.lookup name = some s ↔
    ∃ entry, r.entries[s]? = some entry ∧ entry.symbol.isCalled name
  eq_of_name_eq : ∀ {s t : SymbolId} {entry entry' : Entry}, r.entries[s]? = some entry →
    r.entries[t]? = some entry' → entry.symbol.name = entry'.symbol.name → s = t
  index_eq : ∀ {s : SymbolId} {nt : NonTerminal}, r.entries[s]? = some (.nonTerminal nt) →
    nt.index = s
  right_ne_nil : ∀ {s : SymbolId} {nt : NonTerminal}, r.entries[s]? = some (.nonTerminal nt) →
    ∀ right ∈ nt.alternatives, right ≠ []
  right_lt : ∀ {s : SymbolId} {nt : NonTerminal}, r.entries[s]? = some (.nonTerminal nt) →
    ∀ right ∈ nt.alternatives, ∀ t ∈ right, t < r.entries.length
  start_nonTerminal : ∀ {s : SymbolId}, r.start = some s →
    ∃ nt, r.entries[s]? = some (.nonTerminal nt)

/-- There is an entry for each symbol of the builder. -/
theorem exists_entry_of_symbol {symbol : Symbol} (hs : r.builder.symbols[s]? = some symbol) :
    ∃ entry, r.entries[s]? = some entry ∧ entry.symbol = symbol :=
  Option.map_eq_some_iff.mp ((getElem?_builder s).symm.trans hs)

theorem symbol_of_entry {entry : Entry} (hs : r.entries[s]? = some entry) :
    r.builder.symbols[s]? = some entry.symbol := by
  rw [getElem?_builder, hs, Option.map_some]

/-- **A coherent registry is consistent.** -/
theorem Coherent.consistent (h : r.Coherent) : r.Consistent := by
  have lookup_of_symbol {t : SymbolId} {symbol : Symbol} {name : String}
      (ht : r.builder.symbols[t]? = some symbol) (hname : symbol.isCalled name) :
      r.names.lookup name = some t :=
    (h.lookup_eq name).trans (h.builder.index?_of_isCalled ht hname)
  constructor
  case entry_epsilon =>
    obtain ⟨entry, hentry, heq⟩ := exists_entry_of_symbol h.builder.symbol_epsilon
    cases entry with
    | epsilon => exact hentry
    | _ => cases heq
  case entry_endMark =>
    obtain ⟨entry, hentry, heq⟩ := exists_entry_of_symbol h.builder.symbol_endMark
    cases entry with
    | endMark => exact hentry
    | _ => cases heq
  case lookup_epsilon =>
    intro name hname
    refine lookup_of_symbol h.builder.symbol_epsilon ?_
    simpa [Symbol.isCalled] using hname
  case lookup_endMark => exact lookup_of_symbol h.builder.symbol_endMark rfl
  case lookup_iff =>
    intro name s
    constructor
    · intro hs
      rw [h.lookup_eq] at hs
      obtain ⟨hlt, hcalled, -⟩ := List.findIdx?_eq_some_iff_getElem.mp hs
      obtain ⟨entry, hentry, heq⟩ := exists_entry_of_symbol (List.getElem?_eq_getElem hlt)
      exact ⟨entry, hentry, heq ▸ hcalled⟩
    · rintro ⟨entry, hentry, hcalled⟩
      exact lookup_of_symbol (symbol_of_entry hentry) hcalled
  case eq_of_name_eq =>
    intro s t entry entry' hs ht hname
    have hs' := h.builder.index_name (symbol_of_entry hs)
    rw [hname] at hs'
    exact Option.some.inj (hs'.symm.trans (h.builder.index_name (symbol_of_entry ht)))
  case index_eq => exact h.index_eq
  case right_ne_nil =>
    intro s nt hs
    exact h.builder.right_ne_nil (symbol_of_entry hs)
  case right_lt =>
    intro s nt hs
    rw [← length_builder]
    exact h.builder.right_lt (symbol_of_entry hs)
  case start_nonTerminal =>
    intro s hs
    obtain ⟨name, alternatives, hsymbol⟩ := h.builder.start_nonTerminal hs
    obtain ⟨entry, hentry, heq⟩ := exists_entry_of_symbol hsymbol
    cases entry with
    | nonTerminal nt => exact ⟨nt, hentry⟩
    | _ => cases heq

/-- What the first registry has at a number, the second one has there too. -/
def Grows (r r' : Registry) : Prop :=
  ∀ (s : SymbolId) (entry : Entry), r.entries[s]? = some entry →
    ∃ entry', r'.entries[s]? = some entry' ∧ entry.symbol.Grows entry'.symbol

theorem grows_of_builder (h : r.builder.Grows r'.builder) : r.Grows r' := by
  intro s entry hs
  obtain ⟨symbol, hsymbol, hgrows⟩ := h s entry.symbol (symbol_of_entry hs)
  obtain ⟨entry', hentry', rfl⟩ := exists_entry_of_symbol hsymbol
  exact ⟨entry', hentry', hgrows⟩

end Registry

/-- The ordinals of a grammar and the alternatives of its non-terminals count each other. -/
structure Grammar.Numbered (g : Grammar) : Prop where
  /-- The productions are listed by their ordinals, which begin at 1. -/
  map_ordinal : g.productions.map Production.ordinal = List.range' 1 g.productions.length
  alternative_eq : ∀ p ∈ g.productions, g.alternative p.left p.alternative = .ok p.right
  exists_production?_iff : ∀ ordinal, (∃ p, g.production? ordinal = some p) ↔
    1 ≤ ordinal ∧ ordinal ≤ g.productions.length
  exists_productionOf_iff : ∀ s number, (∃ p, g.productionOf s number = .ok p) ↔
    ∃ name alternatives, g.symbol? s = some (.nonTerminal name alternatives) ∧
      number < alternatives.length
  productionOf_production? : ∀ ordinal p, g.production? ordinal = some p →
    p ∈ g.productions ∧ p.ordinal = ordinal ∧ g.productionOf p.left p.alternative = .ok p
  production?_productionOf : ∀ s number p, g.productionOf s number = .ok p →
    p.left = s ∧ p.alternative = number ∧ g.production? p.ordinal = some p
  ordinal_lt_iff : ∀ p ∈ g.productions, ∀ q ∈ g.productions, p.ordinal < q.ordinal ↔
    g.nameOf p.left < g.nameOf q.left ∨ p.left = q.left ∧ p.alternative < q.alternative

/-- **The productions of a built grammar are numbered.** -/
theorem Grammar.Built.numbered {g : Grammar} (hg : g.Built) : g.Numbered := by
  have hwell := hg.wellFormed
  constructor
  case map_ordinal => exact hwell.map_ordinal
  case alternative_eq => exact fun p hp => hwell.alternative_eq_right hp
  case exists_production?_iff => exact fun ordinal => hwell.exists_production?_iff
  case exists_productionOf_iff => exact fun s number => hwell.exists_productionOf_iff
  case productionOf_production? =>
    intro ordinal p h
    obtain ⟨hp, hordinal⟩ := mem_of_production? h
    exact ⟨hp, hordinal, hwell.productionOf_eq_ok_iff.mpr ⟨hp, rfl, rfl⟩⟩
  case production?_productionOf =>
    intro s number p h
    obtain ⟨hp, hleft, hnumber⟩ := hwell.productionOf_eq_ok_iff.mp h
    exact ⟨hleft, hnumber, hwell.production?_ordinal hp⟩
  case ordinal_lt_iff => exact fun p hp q hq => hg.ordinal_lt_iff hp hq

namespace Registry

/-- **Whatever calls were made on it, a registry is consistent, a call that fails leaves it as it
is, later calls keep the symbols that it has, and what it builds is its own symbols with their
productions numbered.**  Without its table it is the builder that the same history leaves. -/
theorem history_exact (edits : List Builder.Edit) :
    (empty.after edits).Consistent ∧
    (empty.after edits).builder = Builder.empty.after edits ∧
    (empty.after edits).build = (Builder.empty.after edits).build ∧
    (∀ e err, ((edit e).on (empty.after edits)).1 = .error err →
      ((edit e).on (empty.after edits)).2 = empty.after edits) ∧
    (∀ more, (empty.after edits).Grows (empty.after (edits ++ more))) ∧
    ∀ g, (empty.after edits).build = .ok g →
      g.symbols = (empty.after edits).entries.map Entry.symbol ∧
      some g.start = (empty.after edits).start ∧ g.Numbered := by
  obtain ⟨hcoherent, hbuilder⟩ := coherent_empty.after edits
  refine ⟨hcoherent.consistent, hbuilder, hcoherent.build_eq.trans (congrArg _ hbuilder),
    fun e err herr => ?_, fun more => ?_, fun g hg => ?_⟩
  · rcases hcoherent.edit e with ⟨_, _, _, -, heq, -⟩ | ⟨_, -, heq⟩
    · rw [heq] at herr
      exact nomatch herr
    · rw [heq]
  · have hafter : empty.after (edits ++ more) = (empty.after edits).after more :=
      List.foldl_append
    rw [hafter]
    refine grows_of_builder ?_
    rw [(hcoherent.after more).2]
    exact Builder.grows_after _ more
  · rw [hcoherent.build_eq] at hg
    have hbuilt : g.Built := ⟨edits, hbuilder ▸ hg⟩
    obtain ⟨hsymbols, hstart⟩ := Builder.symbols_of_build hg
    exact ⟨hsymbols, hstart, hbuilt.numbered⟩

/-- The calls that build `nested`; two others among them fail. -/
def nestedCalls : List Builder.Edit :=
  [.nonTerminal "S", .terminal "a", .terminal "b", .production 2 [3, 2, 4], .terminal "S",
    .production 2 [], .start 3, .start 2]

theorem history_exact_nested :
    (empty.after nestedCalls).build = .ok Grammar.nested ∧ Grammar.nested.Numbered ∧
    ((edit (.terminal "S")).on (empty.after nestedCalls)).1 = .error (.terminalNonTerminal "S") ∧
    ((edit (.terminal "S")).on (empty.after nestedCalls)).2 = empty.after nestedCalls := by
  obtain ⟨-, -, -, hkept, -, hbuild⟩ := history_exact nestedCalls
  have hnested : (empty.after nestedCalls).build = .ok Grammar.nested := rfl
  exact ⟨hnested, (hbuild _ hnested).2.2, rfl, hkept _ _ rfl⟩

end Registry

end GrammarTables
