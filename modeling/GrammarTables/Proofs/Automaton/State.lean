import GrammarTables.Proofs.Analysis.Settled
import GrammarTables.Proofs.Automaton.Item

/-!
# Proofs/Automaton/State — what a state holds and where it leads

The non-terminals that a kernel brings in settle (`Grammar.closureLefts_settle`), so the items of a
state are closed: a non-terminal after a dot has the items of all its productions
(`State.first_mem_items`).  The kernels that a state leads to hold the advanced items of one symbol
each, and nothing else (`Grammar.get?_successors`).
-/

namespace GrammarTables

variable {g : Grammar} {kernel items : List Item} {i j : Item} {p : Production} {s : SymbolId}

/-! ## The closure of a kernel -/

namespace Grammar

theorem mem_productionsOf {lefts : List SymbolId} :
    p ∈ g.productionsOf lefts ↔ p ∈ g.productions ∧ p.left ∈ lefts := by
  rw [productionsOf, List.mem_filter, List.contains_iff_mem]

/-- What stands after the dot of a first item, if it is a non-terminal, is what its production leads
with. -/
theorem WellFormed.nextNonTerminal?_first (hg : g.WellFormed) (hp : p ∈ g.productions) :
    (Item.first g p.ordinal).nextNonTerminal? g = g.leading? p.right := by
  rw [hg.first_ordinal hp, Item.nextNonTerminal?, Item.next?, hg.itemRight_ordinal hp,
    getElem?_skipEpsilon, leading?, List.drop_zero]

/-- **The non-terminals that a kernel brings in settle.** -/
theorem closureLefts_settle (g : Grammar) (kernel : List Item) :
    settle? g.leftsRound (g.symbols.length + 1)
      (Ascending.ofList (kernel.filterMap (Item.nextNonTerminal? g))) =
        some (g.closureLefts kernel) := by
  have hsettles : (settle? g.leftsRound (g.symbols.length + 1)
      (Ascending.ofList (kernel.filterMap (Item.nextNonTerminal? g)))).isSome := by
    refine settle?_isSome_of_finite (fun lefts s => s ∈ lefts) (Finset.range g.symbols.length)
      (motive := Ascending.IsAscending) Ascending.isAscending_ofList
      (fun lefts h => Ascending.isAscending_insertAll h)
      (fun lefts _ s hs => Ascending.mem_insertAll.mpr (Or.inr hs)) (fun lefts h hne => ?_)
      (by rw [Finset.card_range]; exact Nat.lt_succ_self _)
    obtain ⟨s, hs, hnew⟩ := exists_new_of_insertAll_ne h hne
    refine ⟨s, ?_, Ascending.mem_insertAll.mpr (Or.inl hs), hnew⟩
    obtain ⟨p, -, hp⟩ := List.mem_filterMap.mp hs
    exact Finset.mem_range.mpr (lt_length_of_isNonTerminal (Option.filter_eq_some_iff.mp hp).2)
  obtain ⟨lefts, hlefts⟩ := Option.isSome_iff_exists.mp hsettles
  rw [closureLefts, hlefts]
  rfl

/-- A closure opens the non-terminals before which a dot of the kernel stands. -/
theorem mem_closureLefts_of_mem (hi : i ∈ kernel) (hs : i.nextNonTerminal? g = some s) :
    s ∈ g.closureLefts kernel := by
  refine settle?_induction (g.closureLefts_settle kernel) (motive := fun lefts => s ∈ lefts)
    (Ascending.mem_ofList.mpr (List.mem_filterMap.mpr ⟨i, hi, hs⟩))
    fun lefts h => Ascending.mem_insertAll.mpr (Or.inr h)

/-- It opens those that a production of an opened one begins with, too. -/
theorem mem_closureLefts_of_leading (hp : p ∈ g.productions)
    (hleft : p.left ∈ g.closureLefts kernel) (hs : g.leading? p.right = some s) :
    s ∈ g.closureLefts kernel := by
  have hfix : g.leftsRound (g.closureLefts kernel) = g.closureLefts kernel :=
    (settle?_eq_some (g.closureLefts_settle kernel)).1
  rw [← hfix]
  exact Ascending.mem_insertAll.mpr (Or.inl
    (List.mem_filterMap.mpr ⟨p, mem_productionsOf.mpr ⟨hp, hleft⟩, hs⟩))

/-- **What a kernel brings in stands after one of its dots, or leads a production of what is brought
in.** -/
theorem closureLefts_induction {motive : SymbolId → Prop}
    (direct : ∀ i ∈ kernel, ∀ s, i.nextNonTerminal? g = some s → motive s)
    (leading : ∀ p ∈ g.productions, motive p.left → ∀ s, g.leading? p.right = some s → motive s) :
    ∀ s ∈ g.closureLefts kernel, motive s := by
  refine settle?_induction (g.closureLefts_settle kernel)
    (motive := fun lefts => ∀ s ∈ lefts, motive s) (fun s hs => ?_) fun lefts hlefts s hs => ?_
  · obtain ⟨i, hi, hnext⟩ := List.mem_filterMap.mp (Ascending.mem_ofList.mp hs)
    exact direct i hi s hnext
  · rcases Ascending.mem_insertAll.mp hs with hs | hs
    · obtain ⟨p, hp, hlead⟩ := List.mem_filterMap.mp hs
      obtain ⟨hp, hleft⟩ := mem_productionsOf.mp hp
      exact leading p hp (hlefts p.left hleft) s hlead
    · exact hlefts s hs

section

variable (hg : g.WellFormed)

include hg

/-- The items of a state are its kernel and the first items of what the kernel brings in. -/
theorem WellFormed.mem_items_stateOf : i ∈ (g.stateOf kernel).items ↔
    i ∈ kernel ∨ ∃ p ∈ g.productions, p.left ∈ g.closureLefts kernel ∧
      i = Item.first g p.ordinal := by
  rw [State.items, stateOf, List.mem_append, List.mem_filter, firstItems, List.mem_map]
  constructor
  · rintro (hi | ⟨⟨p, hp, rfl⟩, -⟩)
    · exact Or.inl hi
    · obtain ⟨hp, hleft⟩ := mem_productionsOf.mp hp
      exact Or.inr ⟨p, hp, hleft, (hg.first_ordinal hp).symm⟩
  · rintro (hi | ⟨p, hp, hleft, rfl⟩)
    · exact Or.inl hi
    · by_cases hkernel : Item.first g p.ordinal ∈ kernel
      · exact Or.inl hkernel
      · refine Or.inr ⟨⟨p, mem_productionsOf.mpr ⟨hp, hleft⟩, (hg.first_ordinal hp).symm⟩, ?_⟩
        simpa using hkernel

/-- **The items of a state are closed**: a non-terminal after a dot has the first items of all its
productions. -/
theorem WellFormed.first_mem_items_stateOf (hp : p ∈ g.productions)
    (hi : i ∈ (g.stateOf kernel).items) (hnext : i.next? g = some p.left) :
    Item.first g p.ordinal ∈ (g.stateOf kernel).items := by
  have hnext' : i.nextNonTerminal? g = some p.left := by
    rw [Item.nextNonTerminal?, hnext, Option.filter_some, if_pos (hg.isNonTerminal_left hp)]
  refine hg.mem_items_stateOf.mpr (Or.inr ⟨p, hp, ?_, rfl⟩)
  rcases hg.mem_items_stateOf.mp hi with hi | ⟨q, hq, hleft, rfl⟩
  · exact mem_closureLefts_of_mem hi hnext'
  · rw [hg.nextNonTerminal?_first hq] at hnext'
    exact mem_closureLefts_of_leading hq hleft hnext'

/-- The items of a state are items of the grammar when those of its kernel are. -/
theorem WellFormed.items_stateOf_subset (hkernel : ∀ i ∈ kernel, i ∈ g.items) :
    ∀ i ∈ (g.stateOf kernel).items, i ∈ g.items := by
  intro i hi
  rcases hg.mem_items_stateOf.mp hi with hi | ⟨p, hp, -, rfl⟩
  · exact hkernel i hi
  · exact hg.mem_items_first hp

end

end Grammar

/-! ## Successors -/

/-- The kernels, by symbol, that the items lead to. -/
structure LeadTo (g : Grammar) (items : List Item) (kernels : List (SymbolId × List Item)) :
    Prop where
  hasAscendingKeys : Ascending.HasAscendingKeys kernels
  isAscending : ∀ {s : SymbolId} {kernel : List Item},
    Ascending.get? s kernels = some kernel → Ascending.IsAscending kernel
  mem_iff : ∀ {s : SymbolId} {kernel : List Item}, Ascending.get? s kernels = some kernel →
    ∀ j, j ∈ kernel ↔ ∃ i ∈ items, i.next? g = some s ∧ i.advance g = j
  exists_iff : ∀ {s : SymbolId}, (∃ kernel, Ascending.get? s kernels = some kernel) ↔
    ∃ i ∈ items, i.next? g = some s

theorem LeadTo.nil : LeadTo g [] [] where
  hasAscendingKeys := Ascending.isAscending_nil
  isAscending h := nomatch h
  mem_iff h := nomatch h
  exists_iff := by simp [Ascending.get?]

/-- The kernel for a symbol has the items with the dot moved over it, and no others. -/
theorem LeadTo.mem_getD_iff {kernels : List (SymbolId × List Item)} (h : LeadTo g items kernels) :
    j ∈ (Ascending.get? s kernels).getD [] ↔ ∃ i ∈ items, i.next? g = some s ∧ i.advance g = j := by
  cases hkernel : Ascending.get? s kernels with
  | none =>
    refine ⟨fun h => absurd h List.not_mem_nil, fun ⟨i, hi, hs, _⟩ => ?_⟩
    obtain ⟨kernel, hsome⟩ := h.exists_iff.mpr ⟨i, hi, hs⟩
    exact nomatch hkernel.symm.trans hsome
  | some kernel => exact h.mem_iff hkernel j

theorem LeadTo.snoc_of_complete {kernels : List (SymbolId × List Item)}
    (h : LeadTo g items kernels) (hi : i.next? g = none) : LeadTo g (items ++ [i]) kernels where
  hasAscendingKeys := h.hasAscendingKeys
  isAscending := h.isAscending
  mem_iff hkernel j := by
    rw [h.mem_iff hkernel]
    simp [List.mem_append, or_and_right, exists_or, hi]
  exists_iff {s} := by
    rw [h.exists_iff]
    simp [List.mem_append, or_and_right, exists_or, hi]

/-- An item with a next symbol is moved into the kernel for this symbol. -/
theorem LeadTo.snoc_of_next {kernels : List (SymbolId × List Item)}
    (h : LeadTo g items kernels) (hi : i.next? g = some s) :
    LeadTo g (items ++ [i]) (Ascending.update s
      (fun kernel => Ascending.insert (i.advance g) (kernel.getD [])) kernels) where
  hasAscendingKeys := Ascending.hasAscendingKeys_update h.hasAscendingKeys
  isAscending {t kernel} hkernel := by
    rw [Ascending.get?_update h.hasAscendingKeys] at hkernel
    split at hkernel
    · rw [← Option.some.inj hkernel]
      refine Ascending.isAscending_insert ?_
      cases hold : Ascending.get? s kernels with
      | none => exact Ascending.isAscending_nil
      | some old => exact h.isAscending hold
    · exact h.isAscending hkernel
  mem_iff {t kernel} hkernel j := by
    rw [Ascending.get?_update h.hasAscendingKeys] at hkernel
    split at hkernel
    · next hst =>
      subst hst
      rw [← Option.some.inj hkernel, Ascending.mem_insert, h.mem_getD_iff]
      simp [List.mem_append, or_and_right, exists_or, hi, or_comm, eq_comm]
    · next hst =>
      rw [h.mem_iff hkernel]
      simp [List.mem_append, or_and_right, exists_or, hi, hst]
  exists_iff {t} := by
    rw [Ascending.get?_update h.hasAscendingKeys]
    split
    · next hst => simp [List.mem_append, or_and_right, exists_or, hi, hst]
    · next hst =>
      rw [h.exists_iff]
      simp [List.mem_append, or_and_right, exists_or, hi, hst]

/-- **The successors of the items are the kernels that they lead to.** -/
theorem Grammar.leadTo_successors (g : Grammar) (items : List Item) :
    LeadTo g items (g.successors items) := by
  induction items using List.reverseRecOn with
  | nil => exact .nil
  | append_singleton items i ih =>
    rw [successors, List.foldl_append, ← successors, List.foldl_cons, List.foldl_nil]
    split
    · next hi => exact ih.snoc_of_complete hi
    · next s hi => exact ih.snoc_of_next hi

end GrammarTables
