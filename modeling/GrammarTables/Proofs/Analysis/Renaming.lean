import GrammarTables.Proofs.Analysis.Follow
import GrammarTables.Proofs.Grammar.Renaming
import GrammarTables.Report.Production
import GrammarTables.Report.Sets

/-!
# Proofs/Analysis/Renaming — the sets of a renamed grammar, and what is reported of them

A renaming takes FIRST, FOLLOW and PREDICT of a grammar to those of the other, since they are exact
and derivations are renamed (`mem_predict_iff`).  Sets are listed by names and in the order of the
names, so **the reports are the same** (`predictReport_eq`).
-/

namespace GrammarTables

variable {φ : Equiv.Perm SymbolId} {g g' : Grammar} {sets sets' : Sets} {s t : SymbolId}
  {w : List SymbolId}

/-- The non-terminal in other numbers. -/
def NonTerminal.rename (φ : SymbolId → SymbolId) (nt : NonTerminal) : NonTerminal :=
  ⟨φ nt.index, nt.name, nt.alternatives.map (List.map φ)⟩

theorem NonTerminal.rename_symm_rename (φ : Equiv.Perm SymbolId) (nt : NonTerminal) :
    (nt.rename φ).rename φ.symm = nt := by
  simp [rename, Function.comp_def]

/-! ## Sets that are listed by names -/

/-- A list of names in ascending order does not depend on the order it was made from. -/
theorem Grammar.names_eq_of_perm {set set' : List SymbolId}
    (hspell : (g'.spell set').Perm (g.spell set)) : g'.names set' = g.names set :=
  Ascending.sortBy_eq_of_perm hspell fun _ _ _ _ heq => heq

namespace Renames

variable (h : Renames φ g g')

include h

/-- Renamed sets are listed as the sets are. -/
theorem names_eq {set set' : List SymbolId} (hset : Ascending.IsAscending set)
    (hset' : Ascending.IsAscending set') (hmem : ∀ t, φ t ∈ set' ↔ t ∈ set) :
    g'.names set' = g.names set := by
  refine Grammar.names_eq_of_perm ?_
  have hperm : set'.Perm (set.map φ) := by
    refine (List.perm_ext_iff_of_nodup hset'.nodup (hset.nodup.map φ.injective)).mpr fun t => ?_
    rw [← φ.apply_symm_apply t, hmem, List.mem_map_of_injective φ.injective]
  rw [← h.spell_eq set]
  exact hperm.map g'.nameOf

/-! ## The non-terminals -/

theorem mem_nonTerminals {nt : NonTerminal} (hnt : nt ∈ g.nonTerminals) :
    nt.rename φ ∈ g'.nonTerminals := by
  have hsymbol : g.symbol? nt.index = some (.nonTerminal nt.name nt.alternatives) :=
    mem_nonTerminalsOf.mp hnt
  refine mem_nonTerminalsOf.mpr ((h.symbol?_eq nt.index).trans ?_)
  rw [hsymbol]
  rfl

theorem nonTerminals_perm : g'.nonTerminals.Perm (g.nonTerminals.map (NonTerminal.rename φ)) := by
  have hinjective : (NonTerminal.rename φ).Injective :=
    Function.LeftInverse.injective (NonTerminal.rename_symm_rename φ)
  refine (List.perm_ext_iff_of_nodup h.wellFormed'.nodup_nonTerminals
    (h.wellFormed.nodup_nonTerminals.map hinjective)).mpr fun nt => ⟨fun hnt => ?_, fun hnt => ?_⟩
  · refine List.mem_map.mpr ⟨nt.rename φ.symm, h.symm.mem_nonTerminals hnt, ?_⟩
    exact NonTerminal.rename_symm_rename φ.symm nt
  · obtain ⟨other, hother, rfl⟩ := List.mem_map.mp hnt
    exact h.mem_nonTerminals hother

/-- The non-terminals keep the order of their names. -/
theorem nonTerminalsByName_eq :
    g'.nonTerminalsByName = g.nonTerminalsByName.map (NonTerminal.rename φ) := by
  have hkeys : ∀ nt ∈ g'.nonTerminals, ∀ nt' ∈ g'.nonTerminals, nt.name = nt'.name → nt = nt' :=
    fun nt hnt nt' hnt' => List.inj_on_of_nodup_map h.wellFormed'.nodup_names hnt hnt'
  rw [Grammar.nonTerminalsByName, Ascending.sortBy_eq_of_perm h.nonTerminals_perm hkeys,
    Ascending.sortBy_map]
  rfl

/-! ## The sets -/

/-- What can come after a symbol can come after the renamed one. -/
theorem comesAfter (hst : g.ComesAfter s t) : g'.ComesAfter (φ s) (φ t) := by
  rcases hst with ⟨x, before, after, hx, hderives⟩ | ⟨rfl, before, hderives⟩
  · refine Or.inl ⟨φ x, before.map φ, after.map φ, h.isNonTerminal_eq x ▸ hx, ?_⟩
    simpa using h.derives hderives
  · refine Or.inr ⟨h.apply_endMark, before.map φ, ?_⟩
    simpa [h.start_eq] using h.derives hderives

theorem comesAfter_iff : g'.ComesAfter (φ s) (φ t) ↔ g.ComesAfter s t := by
  refine ⟨fun hst => ?_, h.comesAfter⟩
  simpa using h.symm.comesAfter hst

/-- A sequence can begin with a symbol when the renamed one can. -/
theorem exists_derives_cons_iff : (∃ rest, g'.Derives (w.map φ) (φ t :: rest)) ↔
    ∃ rest, g.Derives w (t :: rest) := by
  constructor
  · rintro ⟨rest, hderives⟩
    refine ⟨rest.map φ.symm, h.derives_iff.mp ?_⟩
    rwa [List.map_cons, map_map_symm]
  · rintro ⟨rest, hderives⟩
    exact ⟨rest.map φ, h.derives hderives⟩

variable (hs : sets.Settled g) (hs' : sets'.Settled g')

include hs hs'

theorem nullableAll_eq (w : List SymbolId) : sets'.nullableAll (w.map φ) = sets.nullableAll w := by
  have hderives := h.derives_iff (v := visible w) (w := [])
  rw [List.map_nil, ← h.visible_map] at hderives
  rw [Bool.eq_iff_iff, hs'.nullableAll_iff_derives h.wellFormed', hderives,
    hs.nullableAll_iff_derives h.wellFormed]

theorem mem_firstOf_iff : φ t ∈ sets'.firstOf g' (w.map φ) ↔ t ∈ sets.firstOf g w := by
  rw [hs'.mem_firstOf_iff_derives h.wellFormed', hs.mem_firstOf_iff_derives h.wellFormed,
    h.isLiteral_eq, h.visible_map, h.exists_derives_cons_iff]

theorem mem_followOf_iff (hleft : g.isNonTerminal s) :
    φ t ∈ sets'.followOf (φ s) ↔ t ∈ sets.followOf s := by
  rw [hs'.mem_followOf_iff h.wellFormed' (h.isNonTerminal_eq s ▸ hleft),
    hs.mem_followOf_iff h.wellFormed hleft, h.isLiteral_eq, h.comesAfter_iff]

/-- **A renamed production is predicted on the renamed lookaheads.** -/
theorem mem_predict_iff (hleft : g.isNonTerminal s) :
    φ t ∈ sets'.predict g' (φ s) (w.map φ) ↔ t ∈ sets.predict g s w := by
  have hnullable : sets'.nullableAll (w.map φ) ↔ sets.nullableAll w := by
    rw [h.nullableAll_eq hs hs']
  rw [Sets.predict, mem_firstOrFollow, Sets.predict, mem_firstOrFollow]
  exact or_congr (h.mem_firstOf_iff hs hs') (and_congr hnullable (h.mem_followOf_iff hs hs' hleft))

omit hs hs'

/-! ## Reports -/

/-- **The productions are reported alike.** -/
theorem productionReport_eq : g'.productionReport = g.productionReport := by
  rw [Grammar.productionReport, h.productions_eq, List.foldr_map]
  refine congrArg (fun f => ProductionReport.mk (g.productions.foldr f [])) ?_
  funext p groups
  exact congr (congr (congrArg addToGroups (h.nameOf_eq p.left))
    (congrArg (Prod.mk p.ordinal) (h.spell_eq p.right))) rfl

/-- **The sets are reported alike.** -/
theorem setsReport_eq : g'.setsReport = g.setsReport := by
  obtain ⟨sets, hsets, hs⟩ := h.wellFormed.exists_sets
  obtain ⟨sets', hsets', hs'⟩ := h.wellFormed'.exists_sets
  rw [Grammar.setsReport, Grammar.setsReport, hsets, hsets']
  refine congrArg (fun rows => Except.ok (SetsReport.mk rows)) ?_
  rw [h.nonTerminalsByName_eq, List.map_map]
  refine List.map_congr_left fun nt hnt => ?_
  have hleft : g.isNonTerminal nt.index := Grammar.isNonTerminal_iff.mpr
    ⟨nt.name, nt.alternatives, mem_nonTerminalsOf.mp (Ascending.mem_sortBy.mp hnt)⟩
  have hfirst : g'.names (sets'.firstOf g' ([nt.index].map φ)) =
      g.names (sets.firstOf g [nt.index]) :=
    h.names_eq (hs.isAscending_firstOf _) (hs'.isAscending_firstOf _) fun t =>
      h.mem_firstOf_iff hs hs'
  have hfollow : g'.names (sets'.followOf (φ nt.index)) = g.names (sets.followOf nt.index) :=
    h.names_eq (hs.isAscending_followOf _) (hs'.isAscending_followOf _) fun t =>
      h.mem_followOf_iff hs hs' hleft
  have hnullable := h.nullableAll_eq hs hs' [nt.index]
  rw [List.map_singleton] at hfirst hnullable
  rw [Function.comp_apply, NonTerminal.rename, hnullable, hfirst, hfollow]

/-- **The lookaheads are reported alike.** -/
theorem predictReport_eq : g'.predictReport = g.predictReport := by
  obtain ⟨sets, hsets, hs⟩ := h.wellFormed.exists_sets
  obtain ⟨sets', hsets', hs'⟩ := h.wellFormed'.exists_sets
  rw [Grammar.predictReport, Grammar.predictReport, hsets, hsets']
  refine congrArg (fun rows => Except.ok (PredictReport.mk rows)) ?_
  rw [h.productions_eq, List.map_map]
  refine List.map_congr_left fun p hp => ?_
  have hpredict : g'.names (sets'.predict g' (φ p.left) (p.right.map φ)) =
      g.names (sets.predict g p.left p.right) :=
    h.names_eq (hs.isAscending_predict _ _) (hs'.isAscending_predict _ _) fun t =>
      h.mem_predict_iff hs hs' (h.wellFormed.isNonTerminal_left hp)
  rw [Function.comp_apply, Production.rename]
  simp only [h.nameOf_eq, h.spell_eq, hpredict]

end Renames

end GrammarTables
