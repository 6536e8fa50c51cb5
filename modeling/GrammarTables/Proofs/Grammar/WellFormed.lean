import GrammarTables.Ascending.Lemmas
import GrammarTables.Grammar.Builder
import Mathlib.Data.List.Nodup

/-!
# Proofs/Grammar/WellFormed — what every built grammar satisfies

A builder never refuses halfway: each change that succeeds keeps `Builder.Coherent`, and a failed
one keeps the builder, so a whole history keeps it (`Builder.Coherent.after`).  `build` then gives a
grammar that is `Grammar.WellFormed`: names and numbers of symbols determine each other, the
productions are exactly the alternatives of the non-terminals, each with its own ordinal.

The other modules speak of well-formed grammars only; `Grammar.Built.wellFormed` is the one bridge.
-/

namespace GrammarTables

/-! ## Results -/

theorem exists_of_map_eq_ok {ε α β : Type} {f : α → β} {x : Except ε α} {y : β}
    (h : x.map f = .ok y) : ∃ a, x = .ok a ∧ f a = y := by
  cases x with
  | ok a => exact ⟨a, rfl, Except.ok.inj h⟩
  | error e => exact nomatch h

variable {b b' : Builder} {name : String} {s : SymbolId} {alternatives : List (List SymbolId)}

/-! ## Numbers and names -/

namespace Symbol

variable {symbols : List Symbol} {new : Symbol}

/-- A symbol is called by its own name. -/
theorem isCalled_name (symbol : Symbol) : symbol.isCalled symbol.name := by
  cases symbol <;> simp [isCalled, name]

theorem isCalled_withAlternative (right : List SymbolId) (symbol : Symbol) :
    isCalled name (Builder.withAlternative right symbol) = isCalled name symbol := by
  cases symbol <;> rfl

theorem name_withAlternative (right : List SymbolId) (symbol : Symbol) :
    (Builder.withAlternative right symbol).name = symbol.name := by
  cases symbol <;> rfl

/-- A name that is known keeps its number when a symbol is put at the end. -/
theorem index?_append_of_some (h : index? symbols name = some s) :
    index? (symbols ++ [new]) name = some s := by
  rw [index?, List.findIdx?_append, ← index?, h]
  rfl

/-- A name that is not known gets the number of the symbol put at the end for it. -/
theorem index?_append_of_none (h : index? symbols name = none) (hnew : new.isCalled name) :
    index? (symbols ++ [new]) name = some symbols.length := by
  rw [index?, List.findIdx?_append, ← index?, h, List.findIdx?_singleton, if_pos hnew]
  simp

/-- Other names are not affected. -/
theorem index?_append_of_not_isCalled (hnew : ¬ new.isCalled name) :
    index? (symbols ++ [new]) name = index? symbols name := by
  rw [index?, List.findIdx?_append, List.findIdx?_singleton, if_neg hnew]
  simp [index?]

/-- One more alternative changes no name. -/
theorem index?_modify (left : SymbolId) (right : List SymbolId) :
    index? (symbols.modify left (Builder.withAlternative right)) name = index? symbols name := by
  induction symbols generalizing left with
  | nil => cases left <;> rfl
  | cons symbol symbols ih =>
    cases left with
    | zero =>
      rw [List.modify_zero_cons, index?, List.findIdx?_cons, isCalled_withAlternative, index?,
        List.findIdx?_cons]
    | succ left =>
      have h := ih left
      rw [index?, index?] at h
      rw [List.modify_succ_cons, index?, List.findIdx?_cons, h, index?, List.findIdx?_cons]

section Modify

variable {left : SymbolId} {right : List SymbolId} {symbol : Symbol}

/-- A symbol that has no alternatives stays. -/
theorem getElem?_modify_of_eq (h : symbols[s]? = some symbol)
    (hkeep : Builder.withAlternative right symbol = symbol) :
    (symbols.modify left (Builder.withAlternative right))[s]? = some symbol := by
  rw [List.getElem?_modify, h]
  simp [hkeep]

/-- Every symbol was there before, perhaps with one alternative less. -/
theorem exists_of_getElem?_modify
    (h : (symbols.modify left (Builder.withAlternative right))[s]? = some symbol) :
    ∃ symbol', symbols[s]? = some symbol' ∧
      (symbol = symbol' ∨ symbol = Builder.withAlternative right symbol') := by
  rw [List.getElem?_modify] at h
  obtain ⟨symbol', hsymbol', rfl⟩ := Option.map_eq_some_iff.mp h
  refine ⟨symbol', hsymbol', ?_⟩
  split
  · exact Or.inr rfl
  · exact Or.inl rfl

/-- Every alternative was there before, or is the new one. -/
theorem exists_alternatives_of_getElem?_modify
    (h : (symbols.modify left (Builder.withAlternative right))[s]? =
      some (.nonTerminal name alternatives)) :
    ∃ alternatives', symbols[s]? = some (.nonTerminal name alternatives') ∧
      ∀ r ∈ alternatives, r ∈ alternatives' ∨ r = right := by
  obtain ⟨symbol', hsymbol', rfl | h⟩ := exists_of_getElem?_modify h
  · exact ⟨alternatives, hsymbol', fun r hr => Or.inl hr⟩
  · cases symbol' with
    | nonTerminal name' alternatives' =>
      obtain ⟨rfl, rfl⟩ := Symbol.nonTerminal.inj h
      refine ⟨alternatives', hsymbol', fun r hr => ?_⟩
      exact (List.mem_append.mp hr).imp_right List.mem_singleton.mp
    | _ => exact nomatch h

end Modify

end Symbol

/-! ## Builders -/

namespace Builder

/-- What every change of a builder keeps. -/
structure Coherent (b : Builder) : Prop where
  symbol_epsilon : b.symbols[epsilonId]? = some .epsilon
  symbol_endMark : b.symbols[endMarkId]? = some .endMark
  /-- The name of a symbol leads back to its number. -/
  index_name : ∀ {s : SymbolId} {symbol : Symbol}, b.symbols[s]? = some symbol →
    b.index? symbol.name = some s
  right_ne_nil : ∀ {s : SymbolId} {name : String} {alternatives : List (List SymbolId)},
    b.symbols[s]? = some (.nonTerminal name alternatives) → ∀ right ∈ alternatives, right ≠ []
  right_lt : ∀ {s : SymbolId} {name : String} {alternatives : List (List SymbolId)},
    b.symbols[s]? = some (.nonTerminal name alternatives) →
      ∀ right ∈ alternatives, ∀ t ∈ right, t < b.symbols.length
  start_nonTerminal : ∀ {s : SymbolId}, b.start = some s →
    ∃ name alternatives, b.symbols[s]? = some (.nonTerminal name alternatives)

theorem coherent_empty : empty.Coherent where
  symbol_epsilon := rfl
  symbol_endMark := rfl
  index_name {s symbol} h := by
    match s, h with
    | 0, h => cases h; rfl
    | 1, h => cases h; rfl
  right_ne_nil {s _ _} h := by
    match s, h with
    | 0, h => cases h
    | 1, h => cases h
  right_lt {s _ _} h := by
    match s, h with
    | 0, h => cases h
    | 1, h => cases h
  start_nonTerminal h := nomatch h

/-- A symbol at the end, under a name that was free and without alternatives yet. -/
theorem Coherent.append (hb : b.Coherent) {new : Symbol} (hfree : b.index? new.name = none)
    (hnew : ∀ name alternatives, new = .nonTerminal name alternatives → alternatives = []) :
    Coherent { b with symbols := b.symbols ++ [new] } := by
  have old {t : Nat} {symbol : Symbol} (h : (b.symbols ++ [new])[t]? = some symbol) :
      b.symbols[t]? = some symbol ∨ t = b.symbols.length ∧ symbol = new := by
    rw [List.getElem?_append] at h
    split at h
    · exact Or.inl h
    · next hlt =>
      obtain ⟨hindex, heq⟩ := List.getElem?_eq_some_iff.mp h
      rw [List.length_singleton] at hindex
      refine Or.inr ⟨by omega, ?_⟩
      rw [← heq, List.getElem_singleton]
  have keep {t : SymbolId} {symbol : Symbol} (h : b.symbols[t]? = some symbol) :
      (b.symbols ++ [new])[t]? = some symbol := by
    rw [List.getElem?_append_left (List.getElem?_eq_some_iff.mp h).1, h]
  constructor
  case symbol_epsilon => exact keep hb.symbol_epsilon
  case symbol_endMark => exact keep hb.symbol_endMark
  case index_name =>
    intro t symbol h
    rcases old h with h | ⟨rfl, rfl⟩
    · exact Symbol.index?_append_of_some (hb.index_name h)
    · exact Symbol.index?_append_of_none hfree (Symbol.isCalled_name _)
  case right_ne_nil =>
    intro t name alternatives h right hright
    rcases old h with h | ⟨-, h⟩
    · exact hb.right_ne_nil h right hright
    · rw [hnew name alternatives h.symm] at hright
      exact absurd hright List.not_mem_nil
  case right_lt =>
    intro t name alternatives h right hright u hu
    rcases old h with h | ⟨-, h⟩
    · refine Nat.lt_of_lt_of_le (hb.right_lt h right hright u hu) ?_
      rw [List.length_append]
      exact Nat.le_add_right ..
    · rw [hnew name alternatives h.symm] at hright
      exact absurd hright List.not_mem_nil
  case start_nonTerminal =>
    intro t ht
    obtain ⟨name, alternatives, h⟩ := hb.start_nonTerminal ht
    exact ⟨name, alternatives, keep h⟩

theorem Coherent.declare (hb : b.Coherent) {isKind : Symbol → Bool} {new : Symbol}
    (hname : new.name = name)
    (hnew : ∀ name alternatives, new = .nonTerminal name alternatives → alternatives = [])
    (h : b.declare name isKind new = .ok (b', s)) : b'.Coherent := by
  rw [Builder.declare] at h
  split at h
  · next hfree =>
    obtain ⟨rfl, -⟩ := Prod.mk.inj (Except.ok.inj h)
    exact hb.append (hname ▸ hfree) hnew
  · split at h
    · obtain ⟨rfl, -⟩ := Prod.mk.inj (Except.ok.inj h)
      exact hb
    · exact nomatch h

theorem requireNonTerminal_eq_ok {u : Unit} (h : b.requireNonTerminal s = .ok u) :
    ∃ name alternatives, b.symbols[s]? = some (.nonTerminal name alternatives) := by
  rw [requireNonTerminal] at h
  split at h
  · next name alternatives hs => exact ⟨name, alternatives, hs⟩
  · exact nomatch h
  · exact nomatch h

/-- One more alternative of one non-terminal. -/
theorem Coherent.modify (hb : b.Coherent) (left : SymbolId) {right : List SymbolId}
    (hne : right ≠ []) (hlt : ∀ t ∈ right, t < b.symbols.length) :
    Coherent { b with symbols := b.symbols.modify left (withAlternative right) } := by
  constructor
  case symbol_epsilon => exact Symbol.getElem?_modify_of_eq hb.symbol_epsilon rfl
  case symbol_endMark => exact Symbol.getElem?_modify_of_eq hb.symbol_endMark rfl
  case index_name =>
    intro t symbol h
    rw [index?, Symbol.index?_modify]
    obtain ⟨symbol', hsymbol', rfl | rfl⟩ := Symbol.exists_of_getElem?_modify h
    · exact hb.index_name hsymbol'
    · rw [Symbol.name_withAlternative]
      exact hb.index_name hsymbol'
  case right_ne_nil =>
    intro t name alternatives h r hr
    obtain ⟨alternatives', h', hmem⟩ := Symbol.exists_alternatives_of_getElem?_modify h
    rcases hmem r hr with hr | rfl
    · exact hb.right_ne_nil h' r hr
    · exact hne
  case right_lt =>
    intro t name alternatives h r hr u hu
    rw [List.length_modify]
    obtain ⟨alternatives', h', hmem⟩ := Symbol.exists_alternatives_of_getElem?_modify h
    rcases hmem r hr with hr | rfl
    · exact hb.right_lt h' r hr u hu
    · exact hlt u hu
  case start_nonTerminal =>
    intro t ht
    obtain ⟨name, alternatives, h⟩ := hb.start_nonTerminal ht
    refine ⟨name, if left = t then alternatives ++ [right] else alternatives, ?_⟩
    rw [List.getElem?_modify, h]
    split <;> rfl

theorem Coherent.addProduction (hb : b.Coherent) {left : SymbolId} {right : List SymbolId}
    (h : b.addProduction left right = .ok b') : b'.Coherent := by
  rw [Builder.addProduction] at h
  split at h
  · exact nomatch h
  · next hrange =>
    split at h
    · exact nomatch h
    · obtain rfl := Except.ok.inj h
      refine hb.modify left ?_ fun t ht => ?_
      · cases right <;> simp
      · -- the empty alternative is stored as the empty string, which is in range too
        split at ht
        · obtain rfl := List.mem_singleton.mp ht
          exact (List.getElem?_eq_some_iff.mp hb.symbol_epsilon).1
        · have := List.find?_eq_none.mp hrange t ht
          simpa using this

theorem Coherent.setStart (hb : b.Coherent) (h : b.setStart s = .ok b') : b'.Coherent := by
  rw [Builder.setStart] at h
  split at h
  · exact nomatch h
  · next hs =>
    obtain rfl := Except.ok.inj h
    exact { hb with
      start_nonTerminal := fun ht => Option.some.inj ht ▸ requireNonTerminal_eq_ok hs }

/-- **A change that succeeds keeps the builder coherent.** -/
theorem Coherent.edit (hb : b.Coherent) {e : Edit} (h : b.edit e = .ok b') : b'.Coherent := by
  cases e with
  | terminal name =>
    obtain ⟨⟨c, t⟩, hc, rfl⟩ := exists_of_map_eq_ok h
    have hnew : (Symbol.terminal name).name = name := rfl
    exact hb.declare hnew (fun _ _ h => nomatch h) hc
  | nonTerminal name =>
    obtain ⟨⟨c, t⟩, hc, rfl⟩ := exists_of_map_eq_ok h
    have hnew : (Symbol.nonTerminal name []).name = name := rfl
    exact hb.declare hnew (fun _ _ h => (Symbol.nonTerminal.inj h).2.symm) hc
  | production left right => exact hb.addProduction h
  | start t => exact hb.setStart h

/-- **A history keeps the builder coherent**, the changes that fail included. -/
theorem Coherent.after (hb : b.Coherent) (edits : List Edit) : (b.after edits).Coherent := by
  induction edits generalizing b with
  | nil => exact hb
  | cons e edits ih =>
    refine ih ?_
    change ((b.edit e).toOption.getD b).Coherent
    cases he : b.edit e with
    | ok b' => exact hb.edit he
    | error _ => exact hb

end Builder

/-! ## The productions of a list of symbols -/

section Numbering

variable {symbols : List Symbol}

theorem mem_nonTerminalsOf {nt : NonTerminal} : nt ∈ nonTerminalsOf symbols ↔
    symbols[nt.index]? = some (.nonTerminal nt.name nt.alternatives) := by
  rw [nonTerminalsOf, List.mem_filterMap]
  constructor
  · rintro ⟨⟨symbol, index⟩, hmem, h⟩
    split at h
    · next heq =>
      obtain ⟨rfl, rfl⟩ := Prod.mk.inj heq
      obtain rfl := Option.some.inj h
      exact List.mem_zipIdx_iff_getElem?.mp hmem
    · exact nomatch h
  · intro h
    exact ⟨(.nonTerminal nt.name nt.alternatives, nt.index),
      List.mem_zipIdx_iff_getElem?.mpr h, rfl⟩

theorem NonTerminal.mem_productions {nt : NonTerminal} {p : Production} : p ∈ nt.productions ↔
    p.ordinal = 0 ∧ p.left = nt.index ∧ nt.alternatives[p.alternative]? = some p.right := by
  rw [NonTerminal.productions, List.mem_map]
  constructor
  · rintro ⟨⟨right, alternative⟩, hmem, rfl⟩
    exact ⟨rfl, rfl, List.mem_zipIdx_iff_getElem?.mp hmem⟩
  · rintro ⟨hordinal, hleft, hright⟩
    refine ⟨(p.right, p.alternative), List.mem_zipIdx_iff_getElem?.mpr hright, ?_⟩
    rw [← hordinal, ← hleft]

/-- The production at place `i` is an alternative with the ordinal `i + 1`. -/
theorem getElem?_numberedProductions {i : Nat} {p : Production}
    (h : (numberedProductions symbols)[i]? = some p) :
    p.ordinal = i + 1 ∧ ∃ name alternatives,
      symbols[p.left]? = some (.nonTerminal name alternatives) ∧
        alternatives[p.alternative]? = some p.right := by
  rw [numberedProductions, List.getElem?_map, List.getElem?_zipIdx] at h
  obtain ⟨⟨q, j⟩, hq, rfl⟩ := Option.map_eq_some_iff.mp h
  obtain ⟨r, hr, heq⟩ := Option.map_eq_some_iff.mp hq
  obtain ⟨rfl, rfl⟩ := Prod.mk.inj heq
  obtain ⟨nt, hnt, hr⟩ := List.mem_flatMap.mp (List.mem_of_getElem? hr)
  obtain ⟨-, hleft, hright⟩ := NonTerminal.mem_productions.mp hr
  refine ⟨by rw [Nat.zero_add], nt.name, nt.alternatives, ?_, hright⟩
  rw [hleft]
  exact mem_nonTerminalsOf.mp (Ascending.mem_sortBy.mp hnt)

/-- Every alternative of a non-terminal is a production. -/
theorem exists_mem_numberedProductions {number : Nat} {right : List SymbolId}
    (hs : symbols[s]? = some (.nonTerminal name alternatives))
    (hright : alternatives[number]? = some right) :
    ∃ p ∈ numberedProductions symbols,
      p.left = s ∧ p.alternative = number ∧ p.right = right := by
  have hmem : (⟨0, s, number, right⟩ : Production) ∈
      (Ascending.sortBy NonTerminal.name (nonTerminalsOf symbols)).flatMap
        NonTerminal.productions :=
    List.mem_flatMap.mpr ⟨⟨s, name, alternatives⟩,
      Ascending.mem_sortBy.mpr (mem_nonTerminalsOf.mpr hs),
      NonTerminal.mem_productions.mpr ⟨rfl, rfl, hright⟩⟩
  obtain ⟨i, hi⟩ := List.getElem?_of_mem hmem
  exact ⟨_, List.mem_map.mpr ⟨(_, i), List.mem_zipIdx_iff_getElem?.mpr hi, rfl⟩, rfl, rfl, rfl⟩

/-- No non-terminal is listed twice. -/
theorem pairwise_index_nonTerminalsOf :
    (nonTerminalsOf symbols).Pairwise fun nt nt' => nt.index ≠ nt'.index := by
  have hindices : (symbols.zipIdx.map Prod.snd).Nodup := by
    rw [List.zipIdx_map_snd]
    exact List.nodup_range'
  rw [nonTerminalsOf, List.pairwise_filterMap]
  refine (List.pairwise_map.mp hindices).imp ?_
  rintro ⟨symbol, index⟩ ⟨symbol', index'⟩ hne nt h nt' h'
  cases symbol with
  | nonTerminal name alternatives =>
    cases symbol' with
    | nonTerminal name' alternatives' =>
      obtain rfl := Option.some.inj h
      obtain rfl := Option.some.inj h'
      exact hne
    | _ => exact nomatch h'
  | _ => exact nomatch h

/-- The numbers of the alternatives of a non-terminal. -/
theorem NonTerminal.map_productions {nt : NonTerminal} :
    nt.productions.map (fun p => (p.left, p.alternative)) =
      (List.range' 0 nt.alternatives.length).map (Prod.mk nt.index) := by
  rw [← List.zipIdx_map_snd, productions, List.map_map, List.map_map]
  rfl

/-- Numbering changes nothing that does not depend on the ordinals. -/
theorem map_numberedProductions {γ : Type} {f : Production → γ}
    (hf : ∀ p ordinal, f { p with ordinal := ordinal } = f p) :
    (numberedProductions symbols).map f =
      ((Ascending.sortBy NonTerminal.name (nonTerminalsOf symbols)).flatMap
        NonTerminal.productions).map f := by
  rw [numberedProductions]
  generalize List.flatMap NonTerminal.productions _ = productions
  conv_rhs => rw [← List.zipIdx_map_fst 0 productions]
  rw [List.map_map, List.map_map]
  exact List.map_congr_left fun entry _ => hf entry.1 (entry.2 + 1)

/-- No alternative is numbered twice. -/
theorem nodup_numberedProductions :
    ((numberedProductions symbols).map fun p => (p.left, p.alternative)).Nodup := by
  rw [map_numberedProductions fun _ _ => rfl, List.map_flatMap, List.nodup_flatMap]
  constructor
  · intro nt _
    rw [NonTerminal.map_productions]
    exact List.Nodup.map (fun i j h => (Prod.mk.inj h).2) List.nodup_range'
  · refine (Ascending.perm_sortBy.pairwise_iff List.disjoint_symm).mpr
      (pairwise_index_nonTerminalsOf.imp ?_)
    intro nt nt' hne key h h'
    rw [NonTerminal.map_productions] at h h'
    obtain ⟨i, -, rfl⟩ := List.mem_map.mp h
    obtain ⟨j, -, heq⟩ := List.mem_map.mp h'
    exact hne (Prod.mk.inj heq).1.symm

/-- Numbered productions of one alternative are one production. -/
theorem eq_of_mem_numberedProductions {p q : Production} (hp : p ∈ numberedProductions symbols)
    (hq : q ∈ numberedProductions symbols) (hleft : p.left = q.left)
    (halternative : p.alternative = q.alternative) : p = q :=
  List.inj_on_of_nodup_map nodup_numberedProductions hp hq (Prod.ext hleft halternative)

end Numbering

/-! ## Grammars -/

namespace Grammar

variable {g : Grammar} {p q : Production}

/-- What building promises of a grammar. -/
structure WellFormed (g : Grammar) : Prop where
  symbol_epsilon : g.symbol? epsilonId = some .epsilon
  symbol_endMark : g.symbol? endMarkId = some .endMark
  /-- The name of a symbol leads back to its number. -/
  index_name : ∀ {s : SymbolId} {symbol : Symbol},
    g.symbol? s = some symbol → g.index? symbol.name = some s
  start_nonTerminal : g.isNonTerminal g.start
  alternatives_ne_nil : ∀ {s : SymbolId} {name : String} {alternatives : List (List SymbolId)},
    g.symbol? s = some (.nonTerminal name alternatives) → alternatives ≠ []
  /-- Ordinals count the productions from 1. -/
  ordinal_eq : ∀ {i : Nat} {p : Production}, g.productions[i]? = some p → p.ordinal = i + 1
  /-- A production is an alternative of its left side. -/
  alternative_of_mem : ∀ {p : Production}, p ∈ g.productions → ∃ name alternatives,
    g.symbol? p.left = some (.nonTerminal name alternatives) ∧
      alternatives[p.alternative]? = some p.right
  /-- Every alternative of a non-terminal is a production. -/
  mem_of_alternative : ∀ {s : SymbolId} {name : String} {alternatives : List (List SymbolId)}
    {number : Nat} {right : List SymbolId}, g.symbol? s = some (.nonTerminal name alternatives) →
      alternatives[number]? = some right →
        ∃ p ∈ g.productions, p.left = s ∧ p.alternative = number ∧ p.right = right
  /-- No alternative is two productions. -/
  eq_of_alternative_eq : ∀ {p q : Production}, p ∈ g.productions → q ∈ g.productions →
    p.left = q.left → p.alternative = q.alternative → p = q
  right_ne_nil : ∀ {p : Production}, p ∈ g.productions → p.right ≠ []
  right_lt : ∀ {p : Production}, p ∈ g.productions → ∀ s ∈ p.right, s < g.symbols.length

/-- **A built grammar is well formed.** -/
theorem Built.wellFormed (hg : g.Built) : g.WellFormed := by
  obtain ⟨edits, h⟩ := hg
  have hb := Builder.coherent_empty.after edits
  generalize Builder.empty.after edits = b at h hb
  rw [Builder.build] at h
  split at h
  · exact nomatch h
  next start hstart =>
  split at h
  · exact nomatch h
  next hfull =>
  obtain rfl := Except.ok.inj h
  have isAlternative {p : Production} (hp : p ∈ numberedProductions b.symbols) :
      ∃ name alternatives, b.symbols[p.left]? = some (.nonTerminal name alternatives) ∧
        alternatives[p.alternative]? = some p.right := by
    obtain ⟨i, hi⟩ := List.getElem?_of_mem hp
    exact (getElem?_numberedProductions hi).2
  constructor
  case symbol_epsilon => exact hb.symbol_epsilon
  case symbol_endMark => exact hb.symbol_endMark
  case index_name => exact hb.index_name
  case start_nonTerminal =>
    obtain ⟨name, alternatives, hs⟩ := hb.start_nonTerminal hstart
    rw [isNonTerminal, symbol?, hs]
    rfl
  case alternatives_ne_nil =>
    intro s name alternatives hs hnil
    have hmem : (⟨s, name, alternatives⟩ : NonTerminal) ∈ nonTerminalsOf b.symbols :=
      mem_nonTerminalsOf.mpr hs
    exact List.find?_eq_none.mp hfull _ hmem (by rw [hnil]; rfl)
  case ordinal_eq =>
    intro i p hp
    exact (getElem?_numberedProductions hp).1
  case alternative_of_mem => exact isAlternative
  case mem_of_alternative =>
    intro s name alternatives number right hs hright
    exact exists_mem_numberedProductions hs hright
  case eq_of_alternative_eq =>
    intro p q hp hq hleft halternative
    exact eq_of_mem_numberedProductions hp hq hleft halternative
  case right_ne_nil =>
    intro p hp
    obtain ⟨name, alternatives, hs, hright⟩ := isAlternative hp
    exact hb.right_ne_nil hs _ (List.mem_of_getElem? hright)
  case right_lt =>
    intro p hp
    obtain ⟨name, alternatives, hs, hright⟩ := isAlternative hp
    exact hb.right_lt hs _ (List.mem_of_getElem? hright)

theorem mem_of_production? {ordinal : Nat} (h : g.production? ordinal = some p) :
    p ∈ g.productions ∧ p.ordinal = ordinal := by
  rw [production?] at h
  exact ⟨List.mem_of_find?_eq_some h, by simpa using List.find?_some h⟩

/-! ### The kinds of symbols -/

theorem nameOf_of_symbol? {symbol : Symbol} (hs : g.symbol? s = some symbol) :
    g.nameOf s = symbol.name := by
  rw [nameOf, name?, hs]
  rfl

theorem lt_length_of_symbol? {symbol : Symbol} (hs : g.symbol? s = some symbol) :
    s < g.symbols.length :=
  (List.getElem?_eq_some_iff.mp hs).1

theorem isTerminal_iff : g.isTerminal s ↔ ∃ name, g.symbol? s = some (.terminal name) := by
  rw [isTerminal]
  cases g.symbol? s with
  | none => simp
  | some symbol => cases symbol <;> simp [Symbol.isTerminal]

theorem isNonTerminal_iff : g.isNonTerminal s ↔
    ∃ name alternatives, g.symbol? s = some (.nonTerminal name alternatives) := by
  rw [isNonTerminal]
  cases g.symbol? s with
  | none => simp
  | some symbol => cases symbol <;> simp [Symbol.isNonTerminal]

theorem isNonTerminal_index {nt : NonTerminal} (hnt : nt ∈ g.nonTerminals) :
    g.isNonTerminal nt.index :=
  isNonTerminal_iff.mpr ⟨nt.name, nt.alternatives, mem_nonTerminalsOf.mp hnt⟩

theorem lt_length_of_isNonTerminal (h : g.isNonTerminal s) : s < g.symbols.length := by
  obtain ⟨name, alternatives, hs⟩ := isNonTerminal_iff.mp h
  exact (List.getElem?_eq_some_iff.mp hs).1

/-- A literal is no non-terminal. -/
theorem isNonTerminal_eq_false_of_isLiteral (h : g.isLiteral s) : g.isNonTerminal s = false := by
  rw [isLiteral] at h
  rw [isNonTerminal]
  cases hs : g.symbol? s with
  | none => rfl
  | some symbol =>
    rw [hs] at h
    cases symbol with
    | nonTerminal => exact nomatch h
    | _ => rfl

/-- A literal goes by its name only. -/
theorem nameOf_eq_of_index? {name : String} (h : g.index? name = some s) (hs : g.isLiteral s) :
    g.nameOf s = name := by
  obtain ⟨hlt, hcalled, -⟩ := List.findIdx?_eq_some_iff_getElem.mp h
  have hsymbol : g.symbol? s = some g.symbols[s] := List.getElem?_eq_getElem hlt
  rw [isLiteral, hsymbol, Option.any_some] at hs
  rw [nameOf, name?, hsymbol]
  generalize g.symbols[s] = symbol at hcalled hs
  cases symbol with
  | epsilon => exact nomatch hs
  | _ => exact of_decide_eq_true hcalled

theorem lt_length_of_isLiteral (h : g.isLiteral s) : s < g.symbols.length := by
  rw [isLiteral, symbol?] at h
  cases hs : g.symbols[s]? with
  | none => rw [hs] at h; exact nomatch h
  | some symbol => exact (List.getElem?_eq_some_iff.mp hs).1

namespace WellFormed

variable (hg : g.WellFormed)

include hg

theorem not_isLiteral_epsilon : ¬ g.isLiteral epsilonId := by
  rw [isLiteral, hg.symbol_epsilon]
  exact Bool.false_ne_true

theorem isLiteral_endMark : g.isLiteral endMarkId := by
  rw [isLiteral, hg.symbol_endMark]
  rfl

theorem ne_epsilon_of_isNonTerminal (h : g.isNonTerminal s) : s ≠ epsilonId := by
  rintro rfl
  rw [isNonTerminal, hg.symbol_epsilon] at h
  exact Bool.false_ne_true h

theorem ne_epsilon_of_isLiteral (h : g.isLiteral s) : s ≠ epsilonId := fun hs =>
  hg.not_isLiteral_epsilon (hs ▸ h)

/-- A symbol that is called what another symbol is named is that symbol. -/
theorem eq_of_symbol_eq {t : SymbolId} {symbol : Symbol} (hs : g.symbol? s = some symbol)
    (ht : g.symbol? t = some symbol) : s = t :=
  Option.some.inj ((hg.index_name hs).symm.trans (hg.index_name ht))

/-- **The name of a symbol leads back to it.** -/
theorem index?_nameOf (hs : s < g.symbols.length) : g.index? (g.nameOf s) = some s := by
  have hsymbol : g.symbol? s = some g.symbols[s] := List.getElem?_eq_getElem hs
  rw [nameOf, name?, hsymbol]
  exact hg.index_name hsymbol

/-- Symbols of one name are one symbol. -/
theorem eq_of_nameOf_eq {t : SymbolId} (hs : s < g.symbols.length) (ht : t < g.symbols.length)
    (h : g.nameOf s = g.nameOf t) : s = t :=
  Option.some.inj ((hg.index?_nameOf hs).symm.trans (h ▸ hg.index?_nameOf ht))

theorem nameOf_endMark : g.nameOf endMarkId = Symbol.endMarkName := by
  rw [nameOf, name?, hg.symbol_endMark]
  rfl

/-! ### Productions -/

theorem alternatives_left (hp : p ∈ g.productions) :
    ∃ alternatives, g.alternatives p.left = .ok alternatives ∧ p.right ∈ alternatives := by
  obtain ⟨name, alternatives, hs, hright⟩ := hg.alternative_of_mem hp
  refine ⟨alternatives, ?_, List.mem_of_getElem? hright⟩
  rw [Grammar.alternatives, symbol, hs]

theorem isNonTerminal_left (hp : p ∈ g.productions) : g.isNonTerminal p.left := by
  obtain ⟨name, alternatives, hs, -⟩ := hg.alternative_of_mem hp
  exact isNonTerminal_iff.mpr ⟨name, alternatives, hs⟩

theorem left_ne_epsilon (hp : p ∈ g.productions) : p.left ≠ epsilonId :=
  hg.ne_epsilon_of_isNonTerminal (hg.isNonTerminal_left hp)

theorem left_ne_of_isLiteral {t : SymbolId} (hp : p ∈ g.productions) (ht : g.isLiteral t) :
    p.left ≠ t := by
  rintro rfl
  have hleft := hg.isNonTerminal_left hp
  rw [isNonTerminal_eq_false_of_isLiteral ht] at hleft
  exact nomatch hleft

/-- Every non-terminal is the left side of a production. -/
theorem exists_production (hs : g.isNonTerminal s) : ∃ p ∈ g.productions, p.left = s := by
  obtain ⟨name, alternatives, hs⟩ := isNonTerminal_iff.mp hs
  obtain ⟨right, hright⟩ : ∃ right, alternatives[0]? = some right := by
    cases alternatives with
    | nil => exact absurd rfl (hg.alternatives_ne_nil hs)
    | cons right _ => exact ⟨right, rfl⟩
  obtain ⟨p, hp, hleft, -⟩ := hg.mem_of_alternative hs hright
  exact ⟨p, hp, hleft⟩

/-- The alternatives of a non-terminal are the right sides of its productions. -/
theorem mem_alternatives_iff {nt : NonTerminal} {right : List SymbolId}
    (hnt : nt ∈ g.nonTerminals) :
    right ∈ nt.alternatives ↔ ∃ p ∈ g.productions, p.left = nt.index ∧ p.right = right := by
  have hs : g.symbol? nt.index = some (.nonTerminal nt.name nt.alternatives) :=
    mem_nonTerminalsOf.mp hnt
  constructor
  · intro h
    obtain ⟨number, hnumber⟩ := List.getElem?_of_mem h
    obtain ⟨p, hp, hleft, -, hright⟩ := hg.mem_of_alternative hs hnumber
    exact ⟨p, hp, hleft, hright⟩
  · rintro ⟨p, hp, hleft, rfl⟩
    obtain ⟨name, alternatives, hsymbol, hright⟩ := hg.alternative_of_mem hp
    rw [hleft, hs] at hsymbol
    obtain ⟨-, rfl⟩ := Symbol.nonTerminal.inj (Option.some.inj hsymbol)
    exact List.mem_of_getElem? hright

/-- The left side of a production is listed with it. -/
theorem exists_nonTerminal (hp : p ∈ g.productions) :
    ∃ nt ∈ g.nonTerminals, nt.index = p.left ∧ p.right ∈ nt.alternatives := by
  obtain ⟨name, alternatives, hs, hright⟩ := hg.alternative_of_mem hp
  exact ⟨⟨p.left, name, alternatives⟩, mem_nonTerminalsOf.mpr hs, rfl, List.mem_of_getElem? hright⟩

/-- Productions with one ordinal are one production. -/
theorem eq_of_ordinal_eq (hp : p ∈ g.productions) (hq : q ∈ g.productions)
    (h : p.ordinal = q.ordinal) : p = q := by
  obtain ⟨i, hi⟩ := List.getElem?_of_mem hp
  obtain ⟨j, hj⟩ := List.getElem?_of_mem hq
  rw [hg.ordinal_eq hi, hg.ordinal_eq hj] at h
  obtain rfl := Nat.succ.inj h
  exact Option.some.inj (hi.symm.trans hj)

/-- **The ordinal of a production leads back to it.** -/
theorem production?_ordinal (hp : p ∈ g.productions) : g.production? p.ordinal = some p := by
  cases h : g.production? p.ordinal with
  | none => exact absurd (decide_eq_true rfl) (List.find?_eq_none.mp h p hp)
  | some q =>
    obtain ⟨hq, hordinal⟩ := mem_of_production? h
    rw [hg.eq_of_ordinal_eq hq hp hordinal]

theorem ordinal_ne_augmented (hp : p ∈ g.productions) : p.ordinal ≠ 0 := by
  obtain ⟨i, hi⟩ := List.getElem?_of_mem hp
  rw [hg.ordinal_eq hi]
  exact Nat.succ_ne_zero i

end WellFormed

/-! ## Two small grammars -/

/-- The grammar `S -> a S b | lambda`. -/
def nested : Grammar :=
  ⟨[.epsilon, .endMark, .nonTerminal "S" [[3, 2, 4], [epsilonId]], .terminal "a", .terminal "b"], 2,
    [⟨1, 2, 0, [3, 2, 4]⟩, ⟨2, 2, 1, [epsilonId]⟩]⟩

theorem nested_built : nested.Built :=
  ⟨[.nonTerminal "S", .terminal "a", .terminal "b", .production 2 [3, 2, 4], .production 2 [],
    .start 2], rfl⟩

/-- The grammar `S -> A L | A c`, `A -> B B`, `B -> lambda`, `L -> L a`: nothing can be derived from
the left-recursive `L`, and `A` vanishes without an empty alternative of its own. -/
def tangled : Grammar :=
  ⟨[.epsilon, .endMark, .nonTerminal "S" [[3, 5], [3, 6]], .nonTerminal "A" [[4, 4]],
    .nonTerminal "B" [[epsilonId]], .nonTerminal "L" [[5, 7]], .terminal "c", .terminal "a"], 2,
    [⟨1, 3, 0, [4, 4]⟩, ⟨2, 4, 0, [epsilonId]⟩, ⟨3, 5, 0, [5, 7]⟩, ⟨4, 2, 0, [3, 5]⟩,
      ⟨5, 2, 1, [3, 6]⟩]⟩

theorem tangled_built : tangled.Built :=
  ⟨[.nonTerminal "S", .nonTerminal "A", .nonTerminal "B", .nonTerminal "L", .terminal "c",
    .terminal "a", .production 2 [3, 5], .production 2 [3, 6], .production 3 [4, 4],
    .production 4 [], .production 5 [5, 7], .start 2], rfl⟩

end Grammar

end GrammarTables
