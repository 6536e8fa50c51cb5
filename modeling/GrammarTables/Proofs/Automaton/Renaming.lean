import GrammarTables.Proofs.Analysis.Renaming
import GrammarTables.Proofs.Automaton.Cells

/-!
# Proofs/Automaton/Renaming — a renamed grammar has the same automaton, up to its numbers

An item is an ordinal and a place, and so means the same in the renaming (`next?_eq`).  **A renamed
word leads to the same items** (`reaches_iff`), so the automata have the same kernels, if not in the
same order (`kernels_perm`), and in the states of one kernel the same reductions and acceptances
meet the shifts along renamed edges (`isSLR1_rows`).
-/

namespace GrammarTables

variable {φ : Equiv.Perm SymbolId} {g g' : Grammar} {i j : Item} {s t : SymbolId}
  {v w right : List SymbolId} {state : State} {a b : Action}

namespace Renames

variable (h : Renames φ g g')

include h

/-! ## Items -/

/-- Empty strings stand in the same places, so the dot skips as far. -/
theorem skipEpsilon_eq (right : List SymbolId) (n : Nat) :
    skipEpsilon (right.map φ) n = skipEpsilon right n := by
  have hepsilon : (fun s => s == epsilonId) ∘ φ = fun s => s == epsilonId := by
    funext s
    rw [Function.comp_apply, Bool.eq_iff_iff, beq_iff_eq, beq_iff_eq, h.apply_eq_epsilon_iff]
  rw [skipEpsilon, ← List.map_drop, List.takeWhile_map, List.length_map, hepsilon]
  rfl

/-- An item has an ordinal and a place, no numbers of symbols: it is an item of both grammars, with
the renamed right side. -/
theorem itemRight_eq (ordinal : Nat) : g'.itemRight ordinal = (g.itemRight ordinal).map φ := by
  rw [Grammar.itemRight, Grammar.itemRight]
  split
  · rw [h.start_eq]
    rfl
  · rw [h.production?_eq]
    cases g.production? ordinal <;> rfl

theorem itemLeft?_eq (ordinal : Nat) : g'.itemLeft? ordinal = (g.itemLeft? ordinal).map φ := by
  rw [Grammar.itemLeft?, h.production?_eq, Grammar.itemLeft?]
  cases g.production? ordinal <;> rfl

/-- The symbol after the dot of an item is the renamed one. -/
theorem next?_eq (i : Item) : i.next? g' = (i.next? g).map φ := by
  rw [Item.next?, h.itemRight_eq, List.getElem?_map]
  rfl

/-- Moving the dot over it gives the same item. -/
theorem advance_eq (i : Item) : i.advance g' = i.advance g := by
  rw [Item.advance, h.itemRight_eq, h.skipEpsilon_eq]
  rfl

theorem first_eq (ordinal : Nat) : Item.first g' ordinal = Item.first g ordinal := by
  rw [Item.first, h.itemRight_eq, h.skipEpsilon_eq]
  rfl

/-! ## Words -/

theorem hasRight {ordinal : Nat} (hright : g.HasRight ordinal right) :
    g'.HasRight ordinal (right.map φ) := by
  cases hright with
  | start =>
    rw [List.map_singleton, ← h.start_eq]
    exact .start
  | production hp => exact .production (h.mem_productions hp)

/-- Where the dot can rest depends on the empty strings only. -/
theorem restsAt {n m : Nat} (hm : RestsAt right n m) : RestsAt (right.map φ) n m := by
  rw [restsAt_iff, h.skipEpsilon_eq]
  exact restsAt_iff.mp hm

/-- **A renamed word leads to the same items.** -/
theorem reaches (hw : g.Reaches w i) : g'.Reaches (w.map φ) i := by
  have hmap {right : List SymbolId} {n : Nat} {s : SymbolId} (hs : right[n]? = some s) :
      (right.map φ)[n]? = some (φ s) := by
    rw [List.getElem?_map, hs]
    rfl
  induction hw with
  | start => exact .start
  | @expand w right i p m _ hright hp hnext hm ih =>
    exact .expand (p := p.rename φ) ih (h.hasRight hright) (h.mem_productions hp) (hmap hnext)
      (h.restsAt hm)
  | read _ hright hnext hm ih =>
    rw [List.map_append, List.map_singleton]
    exact .read ih (h.hasRight hright) (hmap hnext) (h.restsAt hm)

/-- **The items that a word reaches are those that the renamed word reaches.** -/
theorem reaches_iff : g'.Reaches (w.map φ) i ↔ g.Reaches w i := by
  refine ⟨fun hw => ?_, h.reaches⟩
  have hback := h.symm.reaches hw
  rwa [map_symm_map] at hback

/-- **A renamed word is read into the same kernel.** -/
theorem seeds (hj : g.Seeds w j) : g'.Seeds (w.map φ) j := by
  rcases hj with ⟨rfl, rfl⟩ | ⟨v, s, i, rfl, hi, hnext, rfl⟩
  · exact Or.inl ⟨rfl, (h.first_eq _).symm⟩
  · refine Or.inr ⟨v.map φ, φ s, i, by simp, h.reaches hi, ?_, h.advance_eq i⟩
    rw [h.next?_eq, hnext]
    rfl

theorem seeds_iff : g'.Seeds (w.map φ) j ↔ g.Seeds w j := by
  refine ⟨fun hj => ?_, h.seeds⟩
  have hback := h.symm.seeds hj
  rwa [map_symm_map] at hback

/-! ## States -/

/-- **Every state has a namesake**, with the same kernel and the same items. -/
theorem exists_state (hstate : state ∈ g.automaton.states) :
    ∃ state' ∈ g'.automaton.states, state'.kernel = state.kernel ∧
      ∀ i, i ∈ state'.items ↔ i ∈ state.items := by
  have ha := h.wellFormed.automaton_complete
  have ha' := h.wellFormed'.automaton_complete
  obtain ⟨u, hu⟩ := List.getElem?_of_mem hstate
  obtain ⟨w, hw⟩ := h.wellFormed.exists_path (List.getElem?_eq_some_iff.mp hu).1
  obtain ⟨i, hi⟩ := ha.exists_reaches_of_path h.wellFormed hw
  obtain ⟨u', hw'⟩ := ha'.exists_path_of_reaches h.wellFormed' (h.reaches hi)
  obtain ⟨_, hsame, hkernel⟩ := ha.exists_kernel_of_path h.wellFormed hw
  obtain rfl := Option.some.inj (hsame.symm.trans hu)
  obtain ⟨state', hu', hkernel'⟩ := ha'.exists_kernel_of_path h.wellFormed' hw'
  have hstate' := List.mem_of_getElem? hu'
  refine ⟨state', hstate', ?_, fun i => ?_⟩
  · refine Ascending.eq_of_mem_iff
      (ha'.collected.isKernel _ (List.mem_map_of_mem hstate')).isAscending
      (ha.collected.isKernel _ (List.mem_map_of_mem hstate)).isAscending fun j => ?_
    rw [hkernel', hkernel, h.seeds_iff]
  · rw [ha'.mem_items_iff_of_kernel h.wellFormed' hstate' hkernel',
      ha.mem_items_iff_of_kernel h.wellFormed hstate hkernel, h.reaches_iff]

/-- **The automata have the same kernels.** -/
theorem kernels_perm : (g'.automaton.states.map State.kernel).Perm
    (g.automaton.states.map State.kernel) := by
  have hmem {φ : Equiv.Perm SymbolId} {g g' : Grammar} (h : Renames φ g g') {kernel : List Item}
      (hkernel : kernel ∈ g.automaton.states.map State.kernel) :
      kernel ∈ g'.automaton.states.map State.kernel := by
    obtain ⟨state, hstate, rfl⟩ := List.mem_map.mp hkernel
    obtain ⟨state', hstate', heq, -⟩ := h.exists_state hstate
    exact heq ▸ List.mem_map_of_mem hstate'
  exact (List.perm_ext_iff_of_nodup h.wellFormed'.automaton_complete.collected.nodup
    h.wellFormed.automaton_complete.collected.nodup).mpr fun kernel => ⟨hmem h.symm, hmem h⟩

/-- **The automata have equally many states.** -/
theorem length_states : g'.automaton.states.length = g.automaton.states.length := by
  simpa using h.kernels_perm.length_eq

/-! ## Conflicts -/

variable {sets sets' : Sets} (hs : sets.Settled g) (hs' : sets'.Settled g')

include hs hs'

/-- A complete item allows the same on the renamed literal. -/
theorem allows_iff : i.Allows g' sets' (φ t) a ↔ i.Allows g sets t a := by
  rw [Item.Allows, Item.Allows, h.next?_eq, Option.map_eq_none_iff, h.itemLeft?_eq]
  refine and_congr_right fun _ => ?_
  cases hleft : g.itemLeft? i.ordinal with
  | none => exact and_congr_left fun _ => h.apply_eq_endMark_iff
  | some left =>
    obtain ⟨p, hp, rfl⟩ := Option.map_eq_some_iff.mp hleft
    have hnonTerminal := h.wellFormed.isNonTerminal_left (Grammar.mem_of_production? hp).1
    exact and_congr_left fun _ => h.mem_followOf_iff hs hs' hnonTerminal

/-- An action of a state is a shift that its namesake has too, if to another number, or an action of
its namesake. -/
theorem mem_cell_cases {state state' : State} (hstate : state ∈ g.automaton.states)
    (hstate' : state' ∈ g'.automaton.states) (hitems : ∀ i, i ∈ state'.items ↔ i ∈ state.items)
    (ha : a ∈ (actionRow g sets state).cell t) :
    (∃ v, a = .shift v ∧ (t, v) ∈ state.edges ∧
      ∃ v', .shift v' ∈ (actionRow g' sets' state').cell (φ t)) ∨
    (∀ v, a ≠ .shift v) ∧ a ∈ (actionRow g' sets' state').cell (φ t) := by
  rcases mem_cell_actionRow.mp ha with ⟨hterminal, v, hedge, rfl⟩ | ⟨i, hi, hallows⟩
  · obtain ⟨-, -, ⟨i, hi, hnext⟩, -⟩ := h.wellFormed.automaton_complete.exists_of_edge hstate hedge
    have hnext' : i.next? g' = some (φ t) := by
      rw [h.next?_eq, hnext]
      rfl
    obtain ⟨v', -, hedge', -, -⟩ :=
      h.wellFormed'.automaton_complete.exists_edge hstate' ((hitems i).mpr hi) hnext'
    refine Or.inl ⟨v, rfl, hedge, v', mem_cell_actionRow.mpr (Or.inl ⟨?_, v', hedge', rfl⟩)⟩
    rwa [h.isNonTerminal_eq]
  · refine Or.inr ⟨fun v => hallows.ne_shift, mem_cell_actionRow.mpr (Or.inr ⟨i, ?_, ?_⟩)⟩
    · exact (hitems i).mpr hi
    · exact (h.allows_iff hs hs').mpr hallows

/-- **A grammar without conflicts has none under other numbers.** -/
theorem isSLR1_rows
    (hslr : ∀ row ∈ g'.automaton.states.map (actionRow g' sets'), ∀ t, ∀ a ∈ row.cell t,
      ∀ b ∈ row.cell t, a = b) :
    ∀ row ∈ g.automaton.states.map (actionRow g sets), ∀ t, ∀ a ∈ row.cell t,
      ∀ b ∈ row.cell t, a = b := by
  intro row hrow t a ha b hb
  obtain ⟨state, hstate, rfl⟩ := List.mem_map.mp hrow
  obtain ⟨state', hstate', -, hitems⟩ := h.exists_state hstate
  have hagree := hslr _ (List.mem_map_of_mem hstate') (φ t)
  have hkeys := h.wellFormed.automaton_complete.hasAscendingKeys hstate
  rcases h.mem_cell_cases hs hs' hstate hstate' hitems ha with
    ⟨v, rfl, hedge, v', hshift⟩ | ⟨hne, ha'⟩
  · rcases h.mem_cell_cases hs hs' hstate hstate' hitems hb with
      ⟨u, rfl, hedge', -⟩ | ⟨hne, hb'⟩
    · have hu := (Ascending.mem_iff_get?_eq_some hkeys).mp hedge'
      have hv := (Ascending.mem_iff_get?_eq_some hkeys).mp hedge
      rw [Option.some.inj (hv.symm.trans hu)]
    · exact absurd (hagree _ hb' _ hshift) (hne v')
  · rcases h.mem_cell_cases hs hs' hstate hstate' hitems hb with
      ⟨u, rfl, -, v', hshift⟩ | ⟨-, hb'⟩
    · exact absurd (hagree _ ha' _ hshift) (hne v')
    · exact hagree a ha' b hb'

omit hs hs' in
/-- **The grammars are SLR(1) together.** -/
theorem isSLR1_eq : ∃ table table', g.automaton.actionTable g = .ok table ∧
    g'.automaton.actionTable g' = .ok table' ∧ table'.isSLR1 = table.isSLR1 := by
  obtain ⟨sets, hsets, hs⟩ := h.wellFormed.exists_sets
  obtain ⟨sets', hsets', hs'⟩ := h.wellFormed'.exists_sets
  refine ⟨_, _, g.automaton.actionTable_eq_ok hsets, g'.automaton.actionTable_eq_ok hsets', ?_⟩
  rw [Bool.eq_iff_iff, ActionTable.isSLR1_iff_of_clean h.wellFormed'.clean_of_mem_rows,
    ActionTable.isSLR1_iff_of_clean h.wellFormed.clean_of_mem_rows]
  exact ⟨h.isSLR1_rows hs hs', h.symm.isSLR1_rows hs' hs⟩

end Renames

end GrammarTables
