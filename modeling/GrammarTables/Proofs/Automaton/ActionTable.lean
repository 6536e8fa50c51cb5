import GrammarTables.Automaton.ActionTable
import GrammarTables.Proofs.Automaton.Explore

/-!
# Proofs/Automaton/ActionTable — what stands in the cells of the table

A row is written action by action; a write adds its actions and leaves the others (`Writes`).  So a
cell holds the shift along an edge, the reductions by complete items on FOLLOW, and acceptance, and
nothing else (`mem_cell_actionRow`).  Where no cell has more than one action, two actions of a cell
are one (`ActionTable.eq_of_mem_cell`).
-/

namespace GrammarTables

open Ascending

variable {g : Grammar} {sets : Sets} {state : State} {item : Item} {row : ActionRow}
  {s t : SymbolId} {a b : Action} {table : ActionTable}

/-! ## Writing into a row -/

/-- The actions of a row on a literal. -/
def ActionRow.cell (row : ActionRow) (t : SymbolId) : List Action :=
  (get? t row).getD []

/-- The second row has the actions of the first and those added, and no others. -/
structure Writes (row : ActionRow) (adds : SymbolId → Action → Prop) (row' : ActionRow) : Prop where
  hasAscendingKeys : HasAscendingKeys row'
  mem_cell_iff : ∀ t a, a ∈ row'.cell t ↔ a ∈ row.cell t ∨ adds t a

/-- An update whose new cell has one action more writes this action. -/
theorem writes_update {f : Option (List Action) → List Action} (hrow : HasAscendingKeys row)
    (hf : ∀ cell a, a ∈ f cell ↔ a ∈ cell.getD [] ∨ a = b) :
    Writes row (fun t a => t = s ∧ a = b) (update s f row) := by
  refine ⟨hasAscendingKeys_update hrow, fun t a => ?_⟩
  have hget : get? t (update s f row) = if s = t then some (f (get? s row)) else get? t row :=
    get?_update hrow
  rw [ActionRow.cell, hget]
  split
  · next hst =>
    subst hst
    rw [Option.getD_some, hf, ActionRow.cell]
    simp
  · next hst => simp [ActionRow.cell, Ne.symm hst]

theorem writes_push (hrow : HasAscendingKeys row) (s : SymbolId) (b : Action) :
    Writes row (fun t a => t = s ∧ a = b) (row.push s b) :=
  writes_update hrow fun cell a => by simp

theorem writes_put (hrow : HasAscendingKeys row) (s : SymbolId) (b : Action) :
    Writes row (fun t a => t = s ∧ a = b) (row.put s b) := by
  refine writes_update hrow fun cell a => ?_
  dsimp only
  split
  · next hcontains =>
    refine ⟨Or.inl, fun h => h.elim id fun hab => ?_⟩
    rw [hab]
    exact List.contains_iff_mem.mp hcontains
  · simp

/-- **Changes made one after the other write what each of them does.** -/
theorem writes_foldl {α : Type} {change : ActionRow → α → ActionRow}
    {adds : α → SymbolId → Action → Prop} (xs : List α)
    (h : ∀ (row : ActionRow) (x : α), HasAscendingKeys row → Writes row (adds x) (change row x))
    (hrow : HasAscendingKeys row) :
    Writes row (fun t a => ∃ x ∈ xs, adds x t a) (xs.foldl change row) := by
  induction xs generalizing row with
  | nil => exact ⟨hrow, fun t a => by simp⟩
  | cons x xs ih =>
    have hfirst := h row x hrow
    have hrest := ih hfirst.hasAscendingKeys
    refine ⟨hrest.hasAscendingKeys, fun t a => ?_⟩
    rw [List.foldl_cons, hrest.mem_cell_iff, hfirst.mem_cell_iff, or_assoc]
    simp

/-! ## The row of a state -/

/-- What a complete item allows. -/
def Item.Allows (g : Grammar) (sets : Sets) (item : Item) (t : SymbolId) (a : Action) : Prop :=
  item.next? g = none ∧ match g.itemLeft? item.ordinal with
    | none => t = endMarkId ∧ a = .accept
    | some left => t ∈ sets.followOf left ∧ a = .reduce item.ordinal

theorem writes_addItem (g : Grammar) (sets : Sets) (hrow : HasAscendingKeys row) (item : Item) :
    Writes row (item.Allows g sets) (addItem g sets row item) := by
  rw [addItem]
  cases hnext : item.next? g with
  | some s => exact ⟨hrow, fun t a => by simp [Item.Allows, hnext]⟩
  | none =>
    cases hleft : g.itemLeft? item.ordinal with
    | none =>
      have hpush := writes_push hrow endMarkId .accept
      refine ⟨hpush.hasAscendingKeys, fun t a => ?_⟩
      rw [hpush.mem_cell_iff, Item.Allows, hleft]
      simp [hnext]
    | some left =>
      have hput := writes_foldl (sets.followOf left)
        (fun row t (hrow : HasAscendingKeys row) => writes_put hrow t (.reduce item.ordinal)) hrow
      refine ⟨hput.hasAscendingKeys, fun t a => ?_⟩
      rw [hput.mem_cell_iff, Item.Allows, hleft]
      simp [hnext]

theorem writes_shiftRow (g : Grammar) (state : State) :
    Writes [] (fun t a => g.isNonTerminal t = false ∧ ∃ v, (t, v) ∈ state.edges ∧ a = .shift v)
      (shiftRow g state) := by
  have hnil : HasAscendingKeys ([] : ActionRow) := isAscending_nil
  have hrow := writes_foldl (state.edges.filter fun edge => !g.isNonTerminal edge.1)
    (fun row edge (hrow : HasAscendingKeys row) => writes_push hrow edge.1 (.shift edge.2)) hnil
  refine ⟨hrow.hasAscendingKeys, fun t a => ?_⟩
  rw [shiftRow, hrow.mem_cell_iff]
  refine or_congr_right ⟨?_, ?_⟩
  · rintro ⟨⟨s, v⟩, hedge, rfl, rfl⟩
    obtain ⟨hedge, hs⟩ := List.mem_filter.mp hedge
    exact ⟨by simpa using hs, v, hedge, rfl⟩
  · rintro ⟨hs, v, hedge, rfl⟩
    exact ⟨(t, v), List.mem_filter.mpr ⟨hedge, by simpa using hs⟩, rfl, rfl⟩

/-- **A cell holds the shift along an edge and what the complete items allow.** -/
theorem mem_cell_actionRow : a ∈ (actionRow g sets state).cell t ↔
    (g.isNonTerminal t = false ∧ ∃ v, (t, v) ∈ state.edges ∧ a = .shift v) ∨
      ∃ item ∈ state.items, item.Allows g sets t a := by
  have hshift := writes_shiftRow g state
  have hitems := writes_foldl state.items (fun row item (hrow : HasAscendingKeys row) =>
    writes_addItem g sets hrow item) hshift.hasAscendingKeys
  rw [actionRow, hitems.mem_cell_iff, hshift.mem_cell_iff]
  simp [ActionRow.cell, get?]

/-- The table has a row of each kind for each state, once the sets are there. -/
theorem Automaton.actionTable_eq_ok (automaton : Automaton) (hsets : g.sets = .ok sets) :
    automaton.actionTable g =
      .ok ⟨automaton.states.map (actionRow g sets), automaton.states.map (gotoRow g)⟩ := by
  rw [actionTable, hsets]
  rfl

/-- **Two actions of one cell are one action** where no cell has more. -/
theorem ActionTable.eq_of_mem_cell (h : table.isSLR1) (hrow : row ∈ table.actions)
    (ha : a ∈ row.cell t) (hb : b ∈ row.cell t) : a = b := by
  have hcells := List.all_eq_true.mp (List.all_eq_true.mp h row hrow)
  rw [ActionRow.cell] at ha hb
  cases hcell : get? t row with
  | none =>
    rw [hcell] at ha
    exact absurd ha List.not_mem_nil
  | some cell =>
    rw [hcell, Option.getD_some] at ha hb
    obtain ⟨entry, hentry, rfl⟩ := Option.map_eq_some_iff.mp hcell
    have hlength := of_decide_eq_true (hcells entry (List.mem_of_find?_eq_some hentry))
    obtain ⟨only, hlist⟩ := List.length_eq_one_iff.mp
      (Nat.le_antisymm hlength (List.length_pos_of_mem ha))
    rw [hlist] at ha hb
    rw [List.mem_singleton.mp ha, List.mem_singleton.mp hb]

end GrammarTables
