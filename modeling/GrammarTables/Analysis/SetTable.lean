import GrammarTables.Ascending.Lemmas
import GrammarTables.Grammar.Symbol

/-!
# Analysis/SetTable — a set for each symbol

A table is seen through `of`, the set of one symbol.  **Adding to it puts the added members into
the sets they are added to and nothing anywhere else** (`mem_of_addAll`).
-/

namespace GrammarTables

/-- Sets of symbols, one for each symbol of a grammar. -/
abbrev SetTable := List (List SymbolId)

namespace SetTable

/-- Nothing for any of `size` symbols. -/
def empty (size : Nat) : SetTable :=
  List.replicate size []

/-- The set of the symbol `s`. -/
def of (table : SetTable) (s : SymbolId) : List SymbolId :=
  table[s]?.getD []

/-- The table with more members in the set of one symbol. -/
def add (table : SetTable) (s : SymbolId) (set : List SymbolId) : SetTable :=
  table.modify s (Ascending.union set)

/-- The table with more members in the sets of several symbols. -/
def addAll (table : SetTable) (more : List (SymbolId × List SymbolId)) : SetTable :=
  more.foldl (fun table (s, set) => table.add s set) table

variable {table : SetTable} {s t : SymbolId} {set : List SymbolId}
  {more : List (SymbolId × List SymbolId)}

/-- In a table without members no symbol has any, one that is not in the table included. -/
@[simp]
theorem of_empty {size : Nat} : (empty size).of s = [] := by
  rw [of, empty, List.getElem?_replicate]
  split <;> rfl

@[simp]
theorem length_add : (table.add s set).length = table.length :=
  List.length_modify ..

/-- A table has a set for each symbol from the start, and additions give no set to another. -/
@[simp]
theorem length_addAll : (table.addAll more).length = table.length := by
  induction more generalizing table with
  | nil => rfl
  | cons entry more ih => exact ih.trans length_add

/-- Only the set of `s` changes, and nothing when the table has no set for `s`. -/
theorem of_add : (table.add s set).of t =
    if s = t ∧ s < table.length then Ascending.union set (table.of s) else table.of t := by
  rw [of, add, List.getElem?_modify]
  by_cases hs : s = t
  · subst hs
    by_cases hlt : s < table.length
    · simp [hlt, of]
    · simp [hlt, of]
  · simp [hs, of]

/-- Members are kept, and the added ones are those of `set`. -/
theorem mem_of_add {x : SymbolId} : x ∈ (table.add s set).of t ↔
    x ∈ table.of t ∨ s = t ∧ s < table.length ∧ x ∈ set := by
  rw [of_add]
  split
  · next h =>
    obtain ⟨rfl, hlt⟩ := h
    simp [hlt, or_comm]
  · next h => exact ⟨Or.inl, fun h' => h'.elim id fun ⟨hst, hlt, _⟩ => absurd ⟨hst, hlt⟩ h⟩

/-- **The members after several additions**, in whatever order these were made. -/
theorem mem_of_addAll {x : SymbolId} : x ∈ (table.addAll more).of t ↔
    x ∈ table.of t ∨ t < table.length ∧ ∃ set, (t, set) ∈ more ∧ x ∈ set := by
  induction more generalizing table with
  | nil => simp [addAll]
  | cons entry more ih =>
    obtain ⟨s, set⟩ := entry
    have hstep : (table.addAll ((s, set) :: more)) = (table.add s set).addAll more := rfl
    rw [hstep, ih, mem_of_add, length_add]
    constructor
    · rintro ((h | ⟨rfl, hlt, hx⟩) | ⟨hlt, set', hmem, hx⟩)
      · exact Or.inl h
      · exact Or.inr ⟨hlt, set, List.mem_cons_self, hx⟩
      · exact Or.inr ⟨hlt, set', List.mem_cons_of_mem _ hmem, hx⟩
    · rintro (h | ⟨hlt, set', hmem, hx⟩)
      · exact Or.inl (Or.inl h)
      · rcases List.mem_cons.mp hmem with heq | hmem
        · obtain ⟨rfl, rfl⟩ := Prod.mk.inj heq
          exact Or.inl (Or.inr ⟨rfl, hlt, hx⟩)
        · exact Or.inr ⟨hlt, set', hmem, hx⟩

end SetTable

end GrammarTables
