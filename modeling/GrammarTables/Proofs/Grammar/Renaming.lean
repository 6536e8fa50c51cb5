import GrammarTables.Proofs.Grammar.Derives
import GrammarTables.Proofs.Grammar.Spelling
import Mathlib.Data.Finset.Card
import Mathlib.Logic.Equiv.Defs

/-!
# Proofs/Grammar/Renaming — one grammar with its symbols numbered in two ways

A renaming takes the numbers of a grammar's symbols to those of another, which is otherwise the same
grammar: the same names, and the same productions under the same ordinals (`Renames`).  **Whatever
is said of a grammar by names and ordinals is said of its renaming too**; here the names and the
derivations.  A renaming has an inverse (`Renames.symm`), so one direction of such a statement is
enough.
-/

namespace GrammarTables

/-- The symbol with its alternatives in other numbers. -/
def Symbol.rename (φ : SymbolId → SymbolId) : Symbol → Symbol
  | nonTerminal name alternatives => nonTerminal name (alternatives.map (List.map φ))
  | symbol => symbol

/-- Only alternatives have numbers in them, so the name stays. -/
theorem Symbol.name_rename (φ : SymbolId → SymbolId) (symbol : Symbol) :
    (symbol.rename φ).name = symbol.name := by
  cases symbol <;> rfl

/-- The production in other numbers. -/
def Production.rename (φ : SymbolId → SymbolId) (p : Production) : Production :=
  { p with left := φ p.left, right := p.right.map φ }

/-- `φ` takes the symbols of `g` to those of `g'`, and changes no other number. -/
structure Renames (φ : Equiv.Perm SymbolId) (g g' : Grammar) : Prop where
  wellFormed : g.WellFormed
  wellFormed' : g'.WellFormed
  symbol?_eq : ∀ s, g'.symbol? (φ s) = (g.symbol? s).map (Symbol.rename φ)
  start_eq : g'.start = φ g.start
  productions_eq : g'.productions = g.productions.map (Production.rename φ)
  fixes : ∀ s, g.symbols.length ≤ s → φ s = s

variable {φ : Equiv.Perm SymbolId} {g g' : Grammar} {s t : SymbolId} {v w : List SymbolId}
  {p : Production}

/-- The numbers of the symbols are those below their count. -/
theorem symbol?_eq_none_iff : g.symbol? s = none ↔ g.symbols.length ≤ s :=
  List.getElem?_eq_none_iff

section Inverse

theorem map_symm_map (w : List SymbolId) : (w.map φ).map φ.symm = w := by
  simp

theorem map_map_symm (w : List SymbolId) : (w.map φ.symm).map φ = w := by
  simp

/-- The inverse numbering brings the alternatives back. -/
theorem Symbol.rename_symm_rename (symbol : Symbol) : (symbol.rename φ).rename φ.symm = symbol := by
  cases symbol with
  | nonTerminal name alternatives =>
    simp [rename, Function.comp_def]
  | _ => rfl

/-- So it does for a production, whose ordinal is not renamed. -/
theorem Production.rename_symm_rename (p : Production) : (p.rename φ).rename φ.symm = p := by
  simp [rename]

end Inverse

namespace Renames

variable (h : Renames φ g g')

include h

/-- A renaming keeps the number of the symbols. -/
theorem length_eq : g'.symbols.length = g.symbols.length := by
  have hnone (s : SymbolId) : g'.symbols.length ≤ φ s ↔ g.symbols.length ≤ s := by
    rw [← symbol?_eq_none_iff, h.symbol?_eq, Option.map_eq_none_iff, symbol?_eq_none_iff]
  refine Nat.le_antisymm ?_ ?_
  · have hend := (hnone g.symbols.length).mpr (Nat.le_refl _)
    rwa [h.fixes _ (Nat.le_refl _)] at hend
  · have hend : g.symbols.length ≤ φ.symm g'.symbols.length :=
      (hnone _).mp (by rw [Equiv.apply_symm_apply])
    have hfix := h.fixes _ hend
    rw [Equiv.apply_symm_apply] at hfix
    rwa [← hfix] at hend

/-- The other way round. -/
theorem symm : Renames φ.symm g' g where
  wellFormed := h.wellFormed'
  wellFormed' := h.wellFormed
  symbol?_eq s := by
    have hs := h.symbol?_eq (φ.symm s)
    rw [Equiv.apply_symm_apply] at hs
    simp [hs, Function.comp_def, Symbol.rename_symm_rename]
  start_eq := by rw [h.start_eq, Equiv.symm_apply_apply]
  productions_eq := by
    simp [h.productions_eq, Function.comp_def, Production.rename_symm_rename]
  fixes s hs := by
    rw [h.length_eq] at hs
    rw [Equiv.symm_apply_eq, h.fixes s hs]

/-! ## Symbols -/

theorem name?_eq (s : SymbolId) : g'.name? (φ s) = g.name? s := by
  rw [Grammar.name?, h.symbol?_eq, Option.map_map, Grammar.name?]
  exact congrArg (fun f => (g.symbol? s).map f) (funext fun symbol => symbol.name_rename φ)

/-- **A renaming keeps the names.** -/
theorem nameOf_eq (s : SymbolId) : g'.nameOf (φ s) = g.nameOf s := by
  rw [Grammar.nameOf, Grammar.nameOf, h.name?_eq]
  by_cases hs : g.symbols.length ≤ s
  · rw [h.fixes s hs]
  · have hsymbol : g.symbol? s = some g.symbols[s] := List.getElem?_eq_getElem (Nat.not_le.mp hs)
    rw [Grammar.name?, hsymbol]
    rfl

/-- A renamed sequence is spelled as the sequence is. -/
theorem spell_eq (w : List SymbolId) : g'.spell (w.map φ) = g.spell w := by
  rw [Grammar.spell, List.map_map]
  exact List.map_congr_left fun s _ => h.nameOf_eq s

/-- Whether a number belongs to a symbol of some kind does not change when the kind does not look
into the alternatives. -/
theorem any_symbol?_eq {isKind : Symbol → Bool}
    (hkind : ∀ symbol : Symbol, isKind (symbol.rename φ) = isKind symbol) (s : SymbolId) :
    (g'.symbol? (φ s)).any isKind = (g.symbol? s).any isKind := by
  rw [h.symbol?_eq]
  cases g.symbol? s with
  | none => rfl
  | some symbol => exact hkind symbol

theorem isNonTerminal_eq (s : SymbolId) : g'.isNonTerminal (φ s) = g.isNonTerminal s :=
  h.any_symbol?_eq (fun symbol => by cases symbol <;> rfl) s

theorem isLiteral_eq (s : SymbolId) : g'.isLiteral (φ s) = g.isLiteral s :=
  h.any_symbol?_eq (fun symbol => by cases symbol <;> rfl) s

/-- The empty string is told by its constructor, and there is one such symbol, so its number is
kept. -/
theorem apply_epsilon : φ epsilonId = epsilonId := by
  have hsymbol := h.symbol?_eq epsilonId
  rw [h.wellFormed.symbol_epsilon] at hsymbol
  exact h.wellFormed'.eq_of_symbol_eq hsymbol h.wellFormed'.symbol_epsilon

/-- So is that of the end mark. -/
theorem apply_endMark : φ endMarkId = endMarkId := by
  have hsymbol := h.symbol?_eq endMarkId
  rw [h.wellFormed.symbol_endMark] at hsymbol
  exact h.wellFormed'.eq_of_symbol_eq hsymbol h.wellFormed'.symbol_endMark

theorem apply_eq_epsilon_iff : φ s = epsilonId ↔ s = epsilonId := by
  rw [← h.apply_epsilon, φ.apply_eq_iff_eq, h.apply_epsilon]

theorem apply_eq_endMark_iff : φ s = endMarkId ↔ s = endMarkId := by
  rw [← h.apply_endMark, φ.apply_eq_iff_eq, h.apply_endMark]

/-- Empty strings are left out of renamed sequences in the same places. -/
theorem visible_map (w : List SymbolId) : visible (w.map φ) = (visible w).map φ := by
  rw [visible, List.filter_map, visible]
  refine congrArg _ (List.filter_congr fun s _ => ?_)
  simp [h.apply_eq_epsilon_iff]

/-- A name is looked up as the first symbol that is called so.  Other spellings of the empty string
make this more than a statement about names. -/
theorem index?_eq_some {name : String} (hs : g.index? name = some s) :
    g'.index? name = some (φ s) := by
  obtain ⟨hlt, hcalled, -⟩ := List.findIdx?_eq_some_iff_getElem.mp hs
  have hsymbol : g'.symbol? (φ s) = some (g.symbols[s].rename φ) := by
    rw [h.symbol?_eq, Grammar.symbol?, List.getElem?_eq_getElem hlt]
    rfl
  generalize g.symbols[s] = symbol at hcalled hsymbol
  cases symbol with
  | epsilon =>
    -- other names of the empty string are not its own
    obtain rfl : s = epsilonId :=
      h.apply_eq_epsilon_iff.mp (h.wellFormed'.eq_of_symbol_eq hsymbol h.wellFormed'.symbol_epsilon)
    rw [h.apply_epsilon] at hsymbol ⊢
    obtain ⟨hlt', hget⟩ := List.getElem?_eq_some_iff.mp hsymbol
    refine List.findIdx?_eq_some_iff_getElem.mpr ⟨hlt', hget ▸ hcalled, ?_⟩
    exact fun j hj => absurd hj (Nat.not_lt_zero j)
  | nonTerminal other alternatives =>
    obtain rfl : other = name := of_decide_eq_true hcalled
    exact h.wellFormed'.index_name hsymbol
  | _ =>
    obtain rfl := of_decide_eq_true hcalled
    exact h.wellFormed'.index_name hsymbol

/-- **A name stands for the renamed symbol.** -/
theorem index?_eq (name : String) : g'.index? name = (g.index? name).map φ := by
  cases hs : g.index? name with
  | some s => exact h.index?_eq_some hs
  | none =>
    cases ht : g'.index? name with
    | none => rfl
    | some t => exact nomatch hs.symm.trans (h.symm.index?_eq_some ht)

/-! ## Derivations -/

/-- Productions are renamed one by one. -/
theorem mem_productions (hp : p ∈ g.productions) : p.rename φ ∈ g'.productions := by
  rw [h.productions_eq]
  exact List.mem_map_of_mem hp

/-- There are no other productions. -/
theorem exists_of_mem_productions (hp : p ∈ g'.productions) :
    ∃ q ∈ g.productions, q.rename φ = p := by
  rw [h.productions_eq] at hp
  exact List.mem_map.mp hp

/-- The production with an ordinal is the renamed one, as ordinals are not renamed. -/
theorem production?_eq (ordinal : Nat) :
    g'.production? ordinal = (g.production? ordinal).map (Production.rename φ) := by
  rw [Grammar.production?, h.productions_eq, List.find?_map]
  rfl

/-- A step replaces a left side by the visible part of a right side, and renaming goes through
both. -/
theorem produces (hstep : g.Produces v w) : g'.Produces (v.map φ) (w.map φ) := by
  obtain ⟨u, v, p, hp⟩ := hstep
  have hstep := Grammar.Produces.intro (u.map φ) (v.map φ) (p.rename φ) (h.mem_productions hp)
  rw [Production.rename, h.visible_map] at hstep
  simpa only [List.map_append, List.map_cons] using hstep

/-- Renamed steps make a renamed derivation. -/
theorem derives (hderives : g.Derives v w) : g'.Derives (v.map φ) (w.map φ) :=
  Relation.ReflTransGen.lift (List.map φ) (fun _ _ hstep => h.produces hstep) _ _ hderives

/-- **Renamed sequences are derived as the sequences are.** -/
theorem derives_iff : g'.Derives (v.map φ) (w.map φ) ↔ g.Derives v w := by
  refine ⟨fun hderives => ?_, h.derives⟩
  have hback := h.symm.derives hderives
  rwa [map_symm_map, map_symm_map] at hback

end Renames

/-! ## Grammars that are spelled alike -/

namespace Grammar

/-- The number of the symbol called `name`, if there is one. -/
def numberOf (g : Grammar) (name : String) : SymbolId :=
  (g.index? name).getD epsilonId

/-- Names are told apart, so a symbol is found under its name. -/
theorem WellFormed.numberOf_nameOf (hg : g.WellFormed) (hs : s < g.symbols.length) :
    g.numberOf (g.nameOf s) = s := by
  rw [numberOf, hg.index?_nameOf hs]
  rfl

/-- A sequence can be read back from its spelling. -/
theorem WellFormed.map_numberOf_spell (hg : g.WellFormed) (hw : ∀ s ∈ w, s < g.symbols.length) :
    (g.spell w).map g.numberOf = w := by
  rw [spell, List.map_map]
  conv_rhs => rw [← List.map_id w]
  exact List.map_congr_left fun s hs => hg.numberOf_nameOf (hw s hs)

/-- The number in `g'` of the symbol with the same name. -/
def carry (g g' : Grammar) (s : SymbolId) : SymbolId :=
  if s < g.symbols.length then g'.numberOf (g.nameOf s) else s

/-- A number of the grammar is carried by its name. -/
theorem carry_of_lt (hs : s < g.symbols.length) : carry g g' s = g'.numberOf (g.nameOf s) :=
  if_pos hs

/-- Every symbol of `g` has a namesake in `g'`. -/
def NamedIn (g g' : Grammar) : Prop :=
  ∀ s < g.symbols.length, ∃ t < g'.symbols.length, g'.nameOf t = g.nameOf s

section Carry

variable (hg : g.WellFormed) (hg' : g'.WellFormed)

include hg'

/-- What has the same name is what the symbol is carried to. -/
theorem WellFormed.carry_eq (hs : s < g.symbols.length) (ht : t < g'.symbols.length)
    (hname : g'.nameOf t = g.nameOf s) : carry g g' s = t := by
  rw [carry_of_lt hs, ← hname, hg'.numberOf_nameOf ht]

/-- A sequence with the same spelling is what a sequence is carried to. -/
theorem WellFormed.map_carry_eq (hv : ∀ s ∈ v, s < g.symbols.length)
    (hw : ∀ s ∈ w, s < g'.symbols.length) (hspell : g'.spell w = g.spell v) :
    v.map (carry g g') = w := by
  rw [← hg'.map_numberOf_spell hw, hspell, spell, List.map_map]
  exact List.map_congr_left fun s hs => carry_of_lt (hv s hs)

/-- Alternatives with the same spelling are carried to each other, one by one. -/
theorem WellFormed.map_map_carry_eq {rights rights' : List (List SymbolId)}
    (hrights : ∀ right ∈ rights, ∀ s ∈ right, s < g.symbols.length)
    (hrights' : ∀ right ∈ rights', ∀ s ∈ right, s < g'.symbols.length)
    (hspell : rights'.map g'.spell = rights.map g.spell) :
    rights.map (List.map (carry g g')) = rights' := by
  induction rights generalizing rights' with
  | nil => exact (List.map_eq_nil_iff.mp hspell).symm
  | cons right rights ih =>
    cases rights' with
    | nil => exact nomatch hspell
    | cons right' rights' =>
      obtain ⟨hright, hrights⟩ := List.forall_mem_cons.mp hrights
      obtain ⟨hright', hrights'⟩ := List.forall_mem_cons.mp hrights'
      obtain ⟨hhead, htail⟩ := List.cons.inj hspell
      rw [List.map_cons, hg'.map_carry_eq hright hright' hhead, ih hrights hrights' htail]

variable (hnamed : NamedIn g g')

include hnamed

/-- With a namesake to be carried to, a symbol is carried to a symbol. -/
theorem WellFormed.carry_lt (hs : s < g.symbols.length) : carry g g' s < g'.symbols.length := by
  obtain ⟨t, ht, hname⟩ := hnamed s hs
  rwa [hg'.carry_eq hs ht hname]

theorem WellFormed.nameOf_carry (hs : s < g.symbols.length) :
    g'.nameOf (carry g g' s) = g.nameOf s := by
  obtain ⟨t, ht, hname⟩ := hnamed s hs
  rwa [hg'.carry_eq hs ht hname]

include hg

/-- Carrying there and back is the identity, so `carry` is a permutation when both grammars have the
same names. -/
theorem WellFormed.carry_carry (hs : s < g.symbols.length) : carry g' g (carry g g' s) = s :=
  hg.carry_eq (hg'.carry_lt hnamed hs) hs (hg'.nameOf_carry hnamed hs).symm

/-- A grammar that has all the names has as many symbols. -/
theorem WellFormed.length_le_of_namedIn : g.symbols.length ≤ g'.symbols.length := by
  have hcard := Finset.card_le_card_of_injOn (s := Finset.range g.symbols.length)
    (t := Finset.range g'.symbols.length) (carry g g')
    (fun s hs => Finset.mem_coe.mpr (Finset.mem_range.mpr (hg'.carry_lt hnamed
      (Finset.mem_range.mp hs))))
    (fun s hs t ht heq => by
      rw [← hg.carry_carry hg' hnamed (Finset.mem_range.mp hs), heq,
        hg.carry_carry hg' hnamed (Finset.mem_range.mp ht)])
  simpa using hcard

end Carry

/-- The symbols of an alternative are symbols of the grammar. -/
theorem WellFormed.lt_of_mem_alternative (hg : g.WellFormed) {name : String}
    {alternatives : List (List SymbolId)}
    (hs : g.symbol? s = some (.nonTerminal name alternatives)) :
    ∀ right ∈ alternatives, ∀ t ∈ right, t < g.symbols.length := by
  intro right hright t ht
  obtain ⟨number, hnumber⟩ := List.getElem?_of_mem hright
  obtain ⟨p, hp, -, -, rfl⟩ := hg.mem_of_alternative hs hnumber
  exact hg.right_lt hp t ht

section Alike

variable (hperm : g'.spelling.Perm g.spelling)

include hperm

/-- A non-terminal has a namesake with the same alternatives. -/
theorem exists_nonTerminal_of_perm {name : String} {alternatives : List (List SymbolId)}
    (hs : g.symbol? s = some (.nonTerminal name alternatives)) :
    ∃ t alternatives', g'.symbol? t = some (.nonTerminal name alternatives') ∧
      alternatives'.map g'.spell = alternatives.map g.spell :=
  mem_spelling.mp (hperm.mem_iff.mpr (mem_spelling.mpr ⟨s, alternatives, hs, rfl⟩))

variable (hg : g.SpelledOut) (hg' : g'.SpelledOut)

include hg hg'

/-- A terminal has a terminal as its namesake. -/
theorem SpelledOut.exists_terminal {name : String} (hs : g.symbol? s = some (.terminal name)) :
    ∃ t, g'.symbol? t = some (.terminal name) := by
  obtain ⟨hmention, hreserved, hleft⟩ :=
    (hg.terminal_iff name).mp ⟨s, isTerminal_iff.mpr ⟨name, hs⟩, nameOf_of_symbol? hs⟩
  have hmention' : ∃ entry ∈ g'.spelling, Mention entry.2 name := by
    obtain ⟨entry, hentry, hname⟩ := hmention
    exact ⟨entry, hperm.mem_iff.mpr hentry, hname⟩
  obtain ⟨t, ht, htname⟩ := (hg'.terminal_iff name).mpr
    ⟨hmention', hreserved, fun entry hentry => hleft entry (hperm.mem_iff.mp hentry)⟩
  obtain ⟨other, hother⟩ := isTerminal_iff.mp ht
  rw [nameOf_of_symbol? hother] at htname
  exact ⟨t, hother.trans (congrArg (some ∘ Symbol.terminal) htname)⟩

/-- **Every symbol has a namesake of its kind.** -/
theorem SpelledOut.exists_namesake {symbol : Symbol} (hs : g.symbol? s = some symbol) :
    ∃ t, g'.symbol? t = some (symbol.rename (carry g g')) := by
  cases symbol with
  | epsilon => exact ⟨epsilonId, hg'.wellFormed.symbol_epsilon⟩
  | endMark => exact ⟨endMarkId, hg'.wellFormed.symbol_endMark⟩
  | terminal name => exact hg.exists_terminal hperm hg' hs
  | nonTerminal name alternatives =>
    obtain ⟨t, alternatives', ht, hspell⟩ := exists_nonTerminal_of_perm hperm hs
    have hcarry := hg'.wellFormed.map_map_carry_eq (hg.wellFormed.lt_of_mem_alternative hs)
      (hg'.wellFormed.lt_of_mem_alternative ht) hspell
    exact ⟨t, by rw [Symbol.rename, hcarry, ht]⟩

/-- What a symbol is carried to is its namesake, with the carried alternatives. -/
theorem SpelledOut.symbol?_carry {symbol : Symbol} (hs : g.symbol? s = some symbol) :
    g'.symbol? (carry g g' s) = some (symbol.rename (carry g g')) := by
  obtain ⟨t, ht⟩ := hg.exists_namesake hperm hg' hs
  have hname : g'.nameOf t = g.nameOf s := by
    rw [nameOf_of_symbol? ht, nameOf_of_symbol? hs, Symbol.name_rename]
  rwa [hg'.wellFormed.carry_eq (lt_length_of_symbol? hs) (lt_length_of_symbol? ht) hname]

/-- Grammars that are spelled alike have the same names. -/
theorem SpelledOut.namedIn : NamedIn g g' := by
  intro s hs
  have hsymbol : g.symbol? s = some g.symbols[s] := List.getElem?_eq_getElem hs
  obtain ⟨t, ht⟩ := hg.exists_namesake hperm hg' hsymbol
  refine ⟨t, lt_length_of_symbol? ht, ?_⟩
  rw [nameOf_of_symbol? ht, nameOf_of_symbol? hsymbol, Symbol.name_rename]

/-- Each has at least as many symbols as the other, for it has all of its names. -/
theorem SpelledOut.length_eq : g'.symbols.length = g.symbols.length :=
  Nat.le_antisymm
    (hg'.wellFormed.length_le_of_namedIn hg.wellFormed (hg'.namedIn hperm.symm hg))
    (hg.wellFormed.length_le_of_namedIn hg'.wellFormed (hg.namedIn hperm hg'))

/-- Beyond the symbols nothing is carried, so this holds for every number. -/
theorem SpelledOut.carry_carry (s : SymbolId) : carry g' g (carry g g' s) = s := by
  by_cases hs : s < g.symbols.length
  · exact hg.wellFormed.carry_carry hg'.wellFormed (hg.namedIn hperm hg') hs
  · have hs' : ¬ s < g'.symbols.length := by rwa [hg.length_eq hperm hg']
    rw [show carry g g' s = s from if_neg hs, carry, if_neg hs']

end Alike

end Grammar

/-! ### Productions -/

/-- The productions of grammars that are spelled alike are the same, by names. -/
theorem numberedNames_eq_of_perm {entries entries' : List (String × Alternatives)}
    (hnodup : (entries.map Prod.fst).Nodup) (hperm : entries'.Perm entries) :
    numberedNames entries' = numberedNames entries := by
  rw [numberedNames, numberedNames, Ascending.sortBy_eq_of_perm hperm.symm]
  exact fun entry hentry entry' hentry' heq =>
    List.inj_on_of_nodup_map hnodup hentry hentry' heq

/-- The production in the numbers of a grammar. -/
def NamedProduction.numbered (g : Grammar) (p : NamedProduction) : Production :=
  ⟨p.ordinal, g.numberOf p.left, p.alternative, p.right.map g.numberOf⟩

namespace Grammar

/-- A production spelled out can be numbered again. -/
theorem WellFormed.numbered_named (hg : g.WellFormed) (hp : p ∈ g.productions) :
    (p.named g).numbered g = p := by
  rw [NamedProduction.numbered, Production.named]
  simp only [hg.numberOf_nameOf (lt_length_of_isNonTerminal (hg.isNonTerminal_left hp)),
    hg.map_numberOf_spell (hg.right_lt hp)]

/-- In the numbers of the other grammar it is the carried production. -/
theorem WellFormed.numbered_named_carry (hg : g.WellFormed) (hp : p ∈ g.productions) :
    (p.named g).numbered g' = p.rename (carry g g') := by
  have hright : (g.spell p.right).map g'.numberOf = p.right.map (carry g g') := by
    rw [spell, List.map_map]
    exact List.map_congr_left fun s hs => (carry_of_lt (hg.right_lt hp s hs)).symm
  rw [NamedProduction.numbered, Production.rename, Production.named]
  simp only [hright, carry_of_lt (lt_length_of_isNonTerminal (hg.isNonTerminal_left hp))]

/-- **Productions are carried to productions, in their order.** Ordinals are given by the names of
left sides and the places of alternatives, and these agree. -/
theorem Built.productions_eq_carry (hg : g.Built) (hg' : g'.Built)
    (hperm : g'.spelling.Perm g.spelling) :
    g'.productions = g.productions.map (Production.rename (carry g g')) := by
  have hnamed : g'.productions.map (Production.named g') =
      g.productions.map (Production.named g) := by
    rw [hg.map_named_productions, hg'.map_named_productions,
      numberedNames_eq_of_perm hg.wellFormed.nodup_map_fst_spelling hperm]
  calc g'.productions
      = (g'.productions.map (Production.named g')).map (NamedProduction.numbered g') := by
        rw [List.map_map]
        conv_lhs => rw [← List.map_id g'.productions]
        exact List.map_congr_left fun p hp => (hg'.wellFormed.numbered_named hp).symm
    _ = (g.productions.map (Production.named g)).map (NamedProduction.numbered g') := by rw [hnamed]
    _ = g.productions.map (Production.rename (carry g g')) := by
        rw [List.map_map]
        exact List.map_congr_left fun p hp => hg.wellFormed.numbered_named_carry hp

/-- **Grammars that are spelled alike are renamings of each other**, when the start symbol has one
name. -/
theorem exists_renames (hg : g.Built) (hg' : g'.Built) (hs : g.SpelledOut) (hs' : g'.SpelledOut)
    (hperm : g'.spelling.Perm g.spelling) (hstart : g'.nameOf g'.start = g.nameOf g.start) :
    ∃ φ, Renames φ g g' := by
  let φ : Equiv.Perm SymbolId :=
    ⟨carry g g', carry g' g, hs.carry_carry hperm hs', hs'.carry_carry hperm.symm hs⟩
  have hfixes (s : SymbolId) (hlt : g.symbols.length ≤ s) : φ s = s := if_neg (Nat.not_lt.mpr hlt)
  refine ⟨φ, ⟨hg.wellFormed, hg'.wellFormed, fun s => ?_, ?_, ?_, hfixes⟩⟩
  · cases hsymbol : g.symbol? s with
    | some symbol => exact hs.symbol?_carry hperm hs' hsymbol
    | none =>
      have hlt := symbol?_eq_none_iff.mp hsymbol
      rw [hfixes s hlt]
      exact symbol?_eq_none_iff.mpr (hs.length_eq hperm hs' ▸ hlt)
  · exact (hg'.wellFormed.carry_eq
      (lt_length_of_isNonTerminal hg.wellFormed.start_nonTerminal)
      (lt_length_of_isNonTerminal hg'.wellFormed.start_nonTerminal) hstart).symm
  · exact hg.productions_eq_carry hg' hperm

end Grammar

end GrammarTables
