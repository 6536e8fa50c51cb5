import GrammarTables.Proofs.Automaton.Canonical
import GrammarTables.Proofs.Automaton.Unambiguous

/-!
# Proofs/Automaton/Cells — the SLR(1) table says exactly what applies

An action applies in a state and on a literal (`Automaton.Applies`) as a shift along an edge, as a
reduction by a complete item on FOLLOW, or as acceptance where the edge for the start symbol leads.
The cells hold these actions, each once (`Grammar.Built.actionTable_exact`).  Two inputs.

* `ActionRow.Clean` — a write of actions that are not there yet keeps cells free of repetitions.
  Only a reduction is looked for before it is written; a shift is new because edges are a map, and
  acceptance because the items of a state are distinct.
* `mem_items_accept_iff` — the item behind the start symbol can only have been read from the item in
  front of it, which no state but the first has.
-/

namespace GrammarTables

open Ascending

variable {g : Grammar} {sets : Sets} {state : State} {items : List Item} {i j : Item}
  {row : ActionRow} {s t : SymbolId} {a b : Action} {table : ActionTable} {u v : Nat}

/-! ## Rows without repetitions -/

/-- A row is a map to actions, and no cell is empty or holds an action twice. -/
structure ActionRow.Clean (row : ActionRow) : Prop where
  hasAscendingKeys : HasAscendingKeys row
  ne_nil : ∀ cell ∈ row, cell.2 ≠ []
  nodup : ∀ cell ∈ row, cell.2.Nodup

namespace ActionRow.Clean

theorem nil : ActionRow.Clean [] :=
  ⟨isAscending_nil, by simp, by simp⟩

theorem cell_eq (hrow : row.Clean) {cell : SymbolId × List Action} (hcell : cell ∈ row) :
    row.cell cell.1 = cell.2 := by
  rw [ActionRow.cell, (mem_iff_get?_eq_some hrow.hasAscendingKeys).mp hcell, Option.getD_some]

theorem nodup_cell (hrow : row.Clean) (t : SymbolId) : (row.cell t).Nodup := by
  rw [ActionRow.cell]
  cases hcell : get? t row with
  | none => exact List.nodup_nil
  | some cell => exact hrow.nodup _ ((mem_iff_get?_eq_some hrow.hasAscendingKeys).mpr hcell)

theorem update (hrow : row.Clean) {f : Option (List Action) → List Action}
    (hne : f (get? s row) ≠ []) (hnodup : (f (get? s row)).Nodup) :
    ActionRow.Clean (update s f row) := by
  have hkeys : HasAscendingKeys (Ascending.update s f row) :=
    hasAscendingKeys_update hrow.hasAscendingKeys
  have hcell : ∀ cell ∈ Ascending.update s f row, cell.2 = f (get? s row) ∨ cell ∈ row := by
    intro cell hmem
    rw [mem_iff_get?_eq_some hkeys, get?_update hrow.hasAscendingKeys] at hmem
    split at hmem
    · exact Or.inl (Option.some.inj hmem).symm
    · exact Or.inr ((mem_iff_get?_eq_some hrow.hasAscendingKeys).mpr hmem)
  refine ⟨hkeys, fun cell hmem => ?_, fun cell hmem => ?_⟩
  · exact (hcell cell hmem).elim (fun h => h ▸ hne) (hrow.ne_nil cell)
  · exact (hcell cell hmem).elim (fun h => h ▸ hnodup) (hrow.nodup cell)

theorem push (hrow : row.Clean) (hnew : b ∉ row.cell s) : (row.push s b).Clean :=
  hrow.update (by simp) ((hrow.nodup_cell s).append (List.nodup_singleton b) (by simpa using hnew))

theorem put (hrow : row.Clean) (s : SymbolId) (b : Action) : (row.put s b).Clean := by
  have hcell := hrow.nodup_cell s
  rw [ActionRow.cell] at hcell
  refine hrow.update ?_ ?_ <;> dsimp only <;> split
  · next hmem => exact List.ne_nil_of_mem (List.contains_iff_mem.mp hmem)
  · simp
  · exact hcell
  · next hmem =>
    refine hcell.append (List.nodup_singleton b) ?_
    simpa [List.contains_iff_mem] using hmem

/-- **Changes that write different actions keep a row clean**, when none of these is there yet. -/
theorem foldl {α : Type} {change : ActionRow → α → ActionRow}
    {adds : α → SymbolId → Action → Prop} {xs : List α} (hrow : row.Clean)
    (hwrites : ∀ (row : ActionRow) (x : α), HasAscendingKeys row →
      Writes row (adds x) (change row x))
    (hchange : ∀ (row : ActionRow) (x : α), row.Clean → (∀ t a, adds x t a → a ∉ row.cell t) →
      (change row x).Clean)
    (hxs : xs.Pairwise fun x y => ∀ t a, adds x t a → ¬ adds y t a)
    (hnew : ∀ x ∈ xs, ∀ t a, adds x t a → a ∉ row.cell t) : (xs.foldl change row).Clean := by
  induction xs generalizing row with
  | nil => exact hrow
  | cons x xs ih =>
    obtain ⟨hx, hxs⟩ := List.pairwise_cons.mp hxs
    refine ih (hchange row x hrow (hnew x List.mem_cons_self)) hxs fun y hy t a ha hmem => ?_
    rcases ((hwrites row x hrow.hasAscendingKeys).mem_cell_iff t a).mp hmem with hmem | hmem
    · exact hnew y (List.mem_cons_of_mem x hy) t a ha hmem
    · exact hx y hy t a hmem ha

theorem addItem (hrow : row.Clean) (hnew : ∀ t a, i.Allows g sets t a → a ∉ row.cell t) :
    (addItem g sets row i).Clean := by
  rw [GrammarTables.addItem]
  split
  · exact hrow
  · next hnext hleft =>
    refine hrow.push (hnew endMarkId .accept ⟨hnext, ?_⟩)
    rw [hleft]
    exact ⟨rfl, rfl⟩
  · next left hnext hleft =>
    exact List.foldlRecOn (motive := ActionRow.Clean) _ _ hrow fun row hrow t _ => hrow.put t _

end ActionRow.Clean

theorem clean_shiftRow (g : Grammar) (hkeys : HasAscendingKeys state.edges) :
    (shiftRow g state).Clean := by
  have hedges : (state.edges.filter fun edge => !g.isNonTerminal edge.1).Pairwise
      fun edge edge' => edge.1 ≠ edge'.1 :=
    (List.pairwise_map.mp (hkeys.nodup)).filter _
  refine ActionRow.Clean.nil.foldl (fun row edge hrow => writes_push hrow edge.1 (.shift edge.2))
    (fun row edge hrow hnew => hrow.push (hnew _ _ ⟨rfl, rfl⟩)) (hedges.imp ?_)
    fun edge _ t a _ => List.not_mem_nil
  rintro edge edge' hne t a ⟨rfl, -⟩ ⟨h, -⟩
  exact hne h

/-! ## Complete items -/

/-- Complete items allow no shift. -/
theorem Item.Allows.ne_shift (h : i.Allows g sets t a) : a ≠ .shift v := by
  obtain ⟨-, ha⟩ := h
  split at ha
  · exact fun h => nomatch h.symm.trans ha.2
  · exact fun h => nomatch h.symm.trans ha.2

namespace Grammar.WellFormed

variable (hg : g.WellFormed)

include hg

/-- The dot of a complete item stands at the end. -/
theorem position_eq (hi : i ∈ g.items) (h : i.next? g = none) :
    i.position = (g.itemRight i.ordinal).length :=
  Nat.le_antisymm (hg.mem_items.mp hi).2 (List.getElem?_eq_none_iff.mp h)

theorem ordinal_eq_of_itemLeft? (hi : i ∈ g.items) (h : g.itemLeft? i.ordinal = none) :
    i.ordinal = augmentedOrdinal := by
  refine (hg.mem_items.mp hi).1.resolve_left fun ⟨p, hp, hordinal⟩ => ?_
  rw [hordinal, hg.itemLeft?_ordinal hp] at h
  exact nomatch h

/-- **Complete items that allow one action are one item.** -/
theorem eq_of_allows (hi : i ∈ g.items) (hj : j ∈ g.items) (ha : i.Allows g sets t a)
    (ha' : j.Allows g sets t a) : i = j := by
  have hordinal : i.ordinal = j.ordinal := by
    obtain ⟨-, ha⟩ := ha
    obtain ⟨-, ha'⟩ := ha'
    split at ha
    · next hleft =>
      obtain ⟨-, rfl⟩ := ha
      split at ha'
      · next hleft' =>
        rw [hg.ordinal_eq_of_itemLeft? hi hleft, hg.ordinal_eq_of_itemLeft? hj hleft']
      · exact nomatch ha'.2
    · obtain ⟨-, rfl⟩ := ha
      split at ha'
      · exact nomatch ha'.2
      · exact Action.reduce.inj ha'.2
  have hposition : i.position = j.position := by
    rw [hg.position_eq hi ha.1, hg.position_eq hj ha'.1, hordinal]
  cases i
  cases j
  exact congr (congrArg Item.mk hordinal) hposition

/-- A reduction is allowed by the item with the dot at the end of its production. -/
theorem exists_allows_reduce_iff (hitems : ∀ i ∈ items, i ∈ g.items) {ordinal : Nat} :
    (∃ i ∈ items, i.Allows g sets t (.reduce ordinal)) ↔ ∃ p ∈ g.productions,
      p.ordinal = ordinal ∧ ⟨p.ordinal, p.right.length⟩ ∈ items ∧ t ∈ sets.followOf p.left := by
  constructor
  · rintro ⟨i, hi, hnext, ha⟩
    have hposition := hg.position_eq (hitems i hi) hnext
    rcases (hg.mem_items.mp (hitems i hi)).1 with ⟨p, hp, hordinal⟩ | hordinal
    · rw [hordinal, hg.itemLeft?_ordinal hp] at ha
      rw [hordinal, hg.itemRight_ordinal hp] at hposition
      refine ⟨p, hp, (Action.reduce.inj ha.2).symm, ?_, ha.1⟩
      rwa [← hordinal, ← hposition]
    · rw [hordinal, hg.itemLeft?_augmented] at ha
      exact nomatch ha.2
  · rintro ⟨p, hp, rfl, hitem, ht⟩
    refine ⟨_, hitem, ?_, ?_⟩
    · rw [Item.next?, hg.itemRight_ordinal hp]
      exact List.getElem?_eq_none (Nat.le_refl _)
    · rw [hg.itemLeft?_ordinal hp]
      exact ⟨ht, rfl⟩

/-- Acceptance is allowed by the item behind the start symbol. -/
theorem exists_allows_accept_iff (hitems : ∀ i ∈ items, i ∈ g.items) :
    (∃ i ∈ items, i.Allows g sets t .accept) ↔
      t = endMarkId ∧ ⟨augmentedOrdinal, 1⟩ ∈ items := by
  constructor
  · rintro ⟨i, hi, hnext, ha⟩
    cases hleft : g.itemLeft? i.ordinal with
    | some left =>
      rw [hleft] at ha
      exact nomatch ha.2
    | none =>
      rw [hleft] at ha
      have hposition := hg.position_eq (hitems i hi) hnext
      have hordinal := hg.ordinal_eq_of_itemLeft? (hitems i hi) hleft
      rw [hordinal, itemRight_augmented] at hposition
      refine ⟨ha.1, ?_⟩
      rwa [← hordinal, ← show i.position = 1 from hposition]
  · rintro ⟨rfl, hitem⟩
    refine ⟨_, hitem, rfl, ?_⟩
    rw [hg.itemLeft?_augmented]
    exact ⟨rfl, rfl⟩

/-- The symbol after a dot is a symbol of the grammar. -/
theorem lt_length_of_next? (hi : i ∈ g.items) (h : i.next? g = some s) :
    s < g.symbols.length := by
  rw [Item.next?] at h
  rcases (hg.mem_items.mp hi).1 with ⟨p, hp, hordinal⟩ | hordinal
  · rw [hordinal, hg.itemRight_ordinal hp] at h
    exact hg.right_lt hp s (List.mem_of_getElem? h)
  · rw [hordinal, itemRight_augmented] at h
    rw [List.mem_singleton.mp (List.mem_of_getElem? h)]
    exact lt_length_of_isNonTerminal hg.start_nonTerminal

/-- The first items of a state are distinct. -/
theorem nodup_firstItems (lefts : List SymbolId) : (g.firstItems lefts).Nodup := by
  have hdistinct : g.productions.Pairwise fun p q => p.ordinal ≠ q.ordinal := by
    refine List.pairwise_iff_getElem.mpr fun m n hm hn hlt heq => ?_
    rw [hg.ordinal_eq (List.getElem?_eq_getElem hm), hg.ordinal_eq (List.getElem?_eq_getElem hn)]
      at heq
    exact absurd (Nat.succ.inj heq) (Nat.ne_of_lt hlt)
  refine List.pairwise_map.mpr ((hdistinct.filter _).imp fun hne h => ?_)
  exact hne (Item.mk.inj h).1

end Grammar.WellFormed

/-- The items of a state are distinct. -/
theorem Collected.nodup_items (hg : g.WellFormed) {states : List State} (h : Collected g states)
    (hstate : state ∈ states) : state.items.Nodup := by
  have hkernel := (h.isKernel state.kernel (List.mem_map_of_mem hstate)).isAscending
  rw [h.items_eq state hstate, State.items, Grammar.stateOf]
  refine hkernel.nodup.append ((hg.nodup_firstItems _).filter _) fun i hi hi' => ?_
  simpa [hi] using (List.mem_filter.mp hi').2

theorem Collected.items_subset (hg : g.WellFormed) {states : List State} (h : Collected g states)
    (hstate : state ∈ states) : ∀ i ∈ state.items, i ∈ g.items := by
  rw [h.items_eq state hstate]
  exact hg.items_stateOf_subset (h.isKernel state.kernel (List.mem_map_of_mem hstate)).mem_items

theorem clean_actionRow (hg : g.WellFormed) (hitems : state.items.Nodup)
    (hmem : ∀ i ∈ state.items, i ∈ g.items) (hkeys : HasAscendingKeys state.edges) :
    (actionRow g sets state).Clean := by
  have hdistinct : state.items.Pairwise fun i j =>
      ∀ t a, i.Allows g sets t a → ¬ j.Allows g sets t a :=
    hitems.imp_of_mem fun hi hj hne t a ha ha' =>
      hne (hg.eq_of_allows (hmem _ hi) (hmem _ hj) ha ha')
  refine (clean_shiftRow g hkeys).foldl (fun row i hrow => writes_addItem g sets hrow i)
    (fun row i hrow hnew => hrow.addItem hnew) hdistinct fun i hi t a ha hshift => ?_
  rcases ((writes_shiftRow g state).mem_cell_iff t a).mp hshift with hnil | ⟨-, v, -, rfl⟩
  · exact absurd hnil List.not_mem_nil
  · exact ha.ne_shift rfl

/-- The cells of all states are kept as they should be. -/
theorem Grammar.WellFormed.clean_of_mem_rows (hg : g.WellFormed) :
    ∀ row ∈ g.automaton.states.map (actionRow g sets), row.Clean := by
  have ha := hg.automaton_complete
  intro row hrow
  obtain ⟨state, hstate, rfl⟩ := List.mem_map.mp hrow
  exact clean_actionRow hg (ha.collected.nodup_items hg hstate)
    (ha.collected.items_subset hg hstate) (ha.hasAscendingKeys hstate)

/-! ## Behind the start symbol -/

section Accept

variable {w : List SymbolId}

theorem RestsAt.le {right : List SymbolId} {n m : Nat} (h : RestsAt right n m) : n ≤ m :=
  restsAt_iff.mp h ▸ Nat.le_add_right n _

/-- The item in front of the start symbol is reached without reading. -/
theorem Grammar.Reaches.eq_nil (hg : g.WellFormed) (h : g.Reaches w ⟨augmentedOrdinal, 0⟩) :
    w = [] := by
  generalize hi : (⟨augmentedOrdinal, 0⟩ : Item) = i at h
  cases h with
  | start => rfl
  | expand _ _ hp => exact absurd (Item.mk.inj hi).1.symm (hg.ordinal_ne_augmented hp)
  | read _ _ _ hm => exact absurd ((Item.mk.inj hi).2 ▸ hm.le) (Nat.not_succ_le_zero _)

/-- **The item behind the start symbol is reached by reading the start symbol** and nothing else. -/
theorem Grammar.WellFormed.reaches_accept_iff (hg : g.WellFormed) :
    g.Reaches w ⟨augmentedOrdinal, 1⟩ ↔ w = [g.start] := by
  constructor
  · intro h
    generalize hi : (⟨augmentedOrdinal, 1⟩ : Item) = i at h
    cases h with
    | start => exact nomatch hi
    | expand _ _ hp => exact absurd (Item.mk.inj hi).1.symm (hg.ordinal_ne_augmented hp)
    | @read w right i s m h hright hnext hm =>
      obtain ⟨hordinal, hposition⟩ := Item.mk.inj hi
      have hzero : i.position = 0 :=
        Nat.le_zero.mp (Nat.le_of_succ_le_succ (hm.le.trans hposition.ge))
      have hitem : i = ⟨augmentedOrdinal, 0⟩ := congr (congrArg Item.mk hordinal.symm) hzero
      rw [hitem] at h
      rw [← hordinal] at hright
      rw [← hright.itemRight_eq hg, itemRight_augmented, hzero] at hnext
      rw [h.eq_nil hg, ← Option.some.inj hnext]
      rfl
  · rintro rfl
    have hread := Reaches.start.advance (g := g) (s := g.start) rfl
    rwa [show Item.advance g ⟨augmentedOrdinal, 0⟩ = ⟨augmentedOrdinal, 1⟩ from
      congrArg (Item.mk augmentedOrdinal) skipEpsilon_length] at hread

/-- Every state of the automaton is at the end of a path. -/
theorem Grammar.WellFormed.exists_path (hg : g.WellFormed) (hu : u < g.automaton.states.length) :
    ∃ w, g.automaton.Path w u := by
  obtain ⟨limit, hdiscovered⟩ := hg.explores.discovered fun v hpos hv =>
    absurd hv (Nat.not_lt.mpr hpos)
  exact hdiscovered.exists_path hu

theorem Automaton.Complete.path_singleton_iff {automaton : Automaton}
    (ha : automaton.Complete g) : automaton.Path [s] u ↔
      ∃ state, automaton.states[automaton.start]? = some state ∧ (s, u) ∈ state.edges := by
  constructor
  · intro h
    rw [← List.nil_append [s]] at h
    generalize hw : [] ++ [s] = w at h
    cases h with
    | nil => exact nomatch hw
    | @snoc w u v t state h hstate hedge =>
      obtain ⟨rfl, hs⟩ := List.append_inj' hw rfl
      rw [ha.eq_of_path h .nil] at hstate
      rw [List.head_eq_of_cons_eq hs]
      exact ⟨state, hstate, hedge⟩
  · rintro ⟨state, hstate, hedge⟩
    exact .snoc .nil hstate hedge

/-- **The states with the item behind the start symbol are those that the start symbol leads to**
from the first state. -/
theorem Grammar.WellFormed.mem_items_accept_iff (hg : g.WellFormed)
    (hstate : g.automaton.states[u]? = some state) : ⟨augmentedOrdinal, 1⟩ ∈ state.items ↔
      ∃ first, g.automaton.states[g.automaton.start]? = some first ∧
        (g.start, u) ∈ first.edges := by
  obtain ⟨w, hpath⟩ := hg.exists_path (List.getElem?_eq_some_iff.mp hstate).1
  rw [← hg.automaton_complete.path_singleton_iff]
  have hitems {w : List SymbolId} (hpath : g.automaton.Path w u) :
      ⟨augmentedOrdinal, 1⟩ ∈ state.items ↔ w = [g.start] := by
    obtain ⟨_, hsame, hitems⟩ := hg.automaton_complete.exists_of_path hg hpath
    obtain rfl := Option.some.inj (hsame.symm.trans hstate)
    rw [hitems, hg.reaches_accept_iff]
  exact ⟨fun h => (hitems hpath).mp h ▸ hpath, fun h => (hitems h).mpr rfl⟩

end Accept

/-! ## What applies -/

/-- The action applies in state `u` and on the symbol `t`. -/
def Automaton.Applies (automaton : Automaton) (g : Grammar) (u : Nat) (t : SymbolId) :
    Action → Prop
  | .shift v => g.isLiteral t ∧ ∃ state, automaton.states[u]? = some state ∧ (t, v) ∈ state.edges
  | .reduce ordinal => ∃ p ∈ g.productions, p.ordinal = ordinal ∧
      (∃ state, automaton.states[u]? = some state ∧
        (⟨p.ordinal, p.right.length⟩ ∈ state.kernel ∨
          ⟨p.ordinal, p.right.length⟩ ∈ state.extend)) ∧
      ∃ set, g.followOf p.left = .ok set ∧ t ∈ set
  | .accept => t = endMarkId ∧ ∃ state, automaton.states[automaton.start]? = some state ∧
      (g.start, u) ∈ state.edges

/-- A symbol other than the empty string is a literal or a non-terminal. -/
theorem Grammar.WellFormed.isLiteral_iff (hg : g.WellFormed) (hlt : s < g.symbols.length)
    (hne : s ≠ epsilonId) : g.isLiteral s ↔ g.isNonTerminal s = false := by
  refine ⟨Grammar.isNonTerminal_eq_false_of_isLiteral, fun h => ?_⟩
  have hsymbol : g.symbol? s = some g.symbols[s] := List.getElem?_eq_getElem hlt
  rw [Grammar.isNonTerminal, hsymbol] at h
  rw [Grammar.isLiteral, hsymbol]
  cases hcase : g.symbols[s] with
  | epsilon => exact absurd (hg.eq_of_symbol_eq (hcase ▸ hsymbol) hg.symbol_epsilon) hne
  | nonTerminal => rw [hcase] at h; cases h
  | _ => rfl

theorem Grammar.WellFormed.isLiteral_iff_of_edge (hg : g.WellFormed)
    (hstate : g.automaton.states[u]? = some state) (hedge : (t, v) ∈ state.edges) :
    g.isLiteral t ↔ g.isNonTerminal t = false := by
  have ha := hg.automaton_complete
  have hmem := List.mem_of_getElem? hstate
  obtain ⟨w, hpath⟩ := hg.exists_path (List.getElem?_eq_some_iff.mp hstate).1
  obtain ⟨i, hi, hnext⟩ := ha.exists_reaches_of_edge hg hpath hstate hedge
  obtain ⟨-, -, ⟨j, hj, hnext'⟩, -⟩ := ha.exists_of_edge hmem hedge
  exact hg.isLiteral_iff (hg.lt_length_of_next? (ha.collected.items_subset hg hmem j hj) hnext')
    fun h => hi.next?_ne hg (h ▸ hnext)

/-- **A cell holds the actions that apply.** -/
theorem Grammar.WellFormed.mem_cell_iff_applies (hg : g.WellFormed) (hsets : g.sets = .ok sets)
    (hstate : g.automaton.states[u]? = some state) :
    a ∈ (actionRow g sets state).cell t ↔ g.automaton.Applies g u t a := by
  have hitems := hg.automaton_complete.collected.items_subset hg (List.mem_of_getElem? hstate)
  rw [mem_cell_actionRow]
  cases a with
  | shift v =>
    have hedge : (∃ state', g.automaton.states[u]? = some state' ∧ (t, v) ∈ state'.edges) ↔
        (t, v) ∈ state.edges := by simp [hstate]
    have hno : ¬ ∃ i ∈ state.items, i.Allows g sets t (.shift v) :=
      fun ⟨i, _, ha⟩ => ha.ne_shift rfl
    rw [or_iff_left hno, Automaton.Applies, hedge]
    simp only [Action.shift.injEq, exists_eq_right']
    exact and_congr_left fun hedge => (hg.isLiteral_iff_of_edge hstate hedge).symm
  | reduce ordinal =>
    rw [or_iff_right (by simp), hg.exists_allows_reduce_iff hitems, Automaton.Applies]
    refine exists_congr fun p => and_congr_right fun hp => and_congr_right fun _ => ?_
    rw [hg.mem_followOf_iff_exists hsets (hg.isNonTerminal_left hp)]
    simp [hstate, State.items]
  | accept =>
    rw [or_iff_right (by simp), hg.exists_allows_accept_iff hitems, hg.mem_items_accept_iff hstate,
      Automaton.Applies]

/-- Actions apply on literals only. -/
theorem Grammar.WellFormed.isLiteral_of_applies (hg : g.WellFormed)
    (h : g.automaton.Applies g u t a) : g.isLiteral t := by
  cases a with
  | shift v => exact h.1
  | reduce ordinal =>
    obtain ⟨p, hp, -, -, set, hset, ht⟩ := h
    obtain ⟨sets, hs, -, hfollow⟩ := hg.followOf_eq_ok (hg.isNonTerminal_left hp)
    rw [← Except.ok.inj (hfollow.symm.trans hset)] at ht
    exact hs.isLiteral_of_mem_followOf ht
  | accept => exact h.1 ▸ hg.isLiteral_endMark

/-! ## Conflicts -/

namespace ActionTable

theorem isSLR1_iff_conflicts_eq_nil : table.isSLR1 ↔ table.conflicts g = [] := by
  have hmem (row : ActionRow) : row ∈ table.actions ↔ ∃ u, (row, u) ∈ table.actions.zipIdx := by
    rw [List.mem_iff_getElem?]
    exact exists_congr fun u => (List.mem_zipIdx_iff_getElem? (x := (row, u))).symm
  simp only [isSLR1, conflicts, List.flatMap_eq_nil_iff, List.all_eq_true, decide_eq_true_eq,
    List.map_eq_nil_iff, List.filter_eq_nil_iff, Prod.forall, Nat.not_lt, hmem, forall_exists_index]

/-- **In clean rows a table has no conflict when no two actions share a cell.** -/
theorem isSLR1_iff_of_clean (hrows : ∀ row ∈ table.actions, row.Clean) : table.isSLR1 ↔
    ∀ row ∈ table.actions, ∀ t, ∀ a ∈ row.cell t, ∀ b ∈ row.cell t, a = b := by
  refine ⟨fun h row hrow t a ha b hb => table.eq_of_mem_cell h hrow ha hb, fun h => ?_⟩
  refine List.all_eq_true.mpr fun row hrow => List.all_eq_true.mpr fun cell hcell => ?_
  have hclean := hrows row hrow
  have hsame := h row hrow cell.1
  rw [hclean.cell_eq hcell] at hsame
  match hlist : cell.2 with
  | [] => rfl
  | [_] => rfl
  | a :: b :: rest =>
    have hnodup := hclean.nodup cell hcell
    rw [hlist] at hsame hnodup
    exact absurd (hsame a (by simp) b (by simp)) (by simp at hnodup; exact hnodup.1.1)

/-- **A table without conflicts has no two actions that apply together**, when its rows hold what
applies, each action once. -/
theorem isSLR1_iff_forall_applies {automaton : Automaton}
    (hlength : table.actions.length = automaton.states.length)
    (hcell : ∀ (u : Nat) (row : ActionRow) (t : SymbolId) (a : Action),
      table.actions[u]? = some row → (a ∈ row.cell t ↔ automaton.Applies g u t a))
    (hrows : ∀ row ∈ table.actions, row.Clean) : table.isSLR1 ↔
    ∀ u < automaton.states.length, ∀ t a b, automaton.Applies g u t a →
      automaton.Applies g u t b → a = b := by
  rw [isSLR1_iff_of_clean hrows]
  constructor
  · intro h u hu t a b ha hb
    obtain ⟨row, hrow⟩ : ∃ row, table.actions[u]? = some row :=
      ⟨_, List.getElem?_eq_getElem (hlength ▸ hu)⟩
    exact h row (List.mem_of_getElem? hrow) t a ((hcell u row t a hrow).mpr ha) b
      ((hcell u row t b hrow).mpr hb)
  · intro h row hrow t a ha b hb
    obtain ⟨u, hu⟩ := List.getElem?_of_mem hrow
    have hlt := (List.getElem?_eq_some_iff.mp hu).1
    exact h u (hlength ▸ hlt) t a b ((hcell u row t a hu).mp ha) ((hcell u row t b hu).mp hb)

end ActionTable

/-! ## The table -/

theorem hasAscendingKeys_gotoRow (g : Grammar) (hkeys : HasAscendingKeys state.edges) :
    HasAscendingKeys (gotoRow g state) :=
  List.Pairwise.sublist (List.filter_sublist.map _) hkeys

theorem Automaton.Complete.get?_gotoRow_iff {automaton : Automaton} (ha : automaton.Complete g)
    (hstate : automaton.states[u]? = some state) : get? s (gotoRow g state) = some v ↔
      g.isNonTerminal s ∧ ∃ state, automaton.states[u]? = some state ∧ (s, v) ∈ state.edges := by
  have hkeys := hasAscendingKeys_gotoRow g (ha.hasAscendingKeys (List.mem_of_getElem? hstate))
  rw [← mem_iff_get?_eq_some hkeys, gotoRow, List.mem_filter]
  simp [hstate, and_comm]

/-- The table says exactly what applies. -/
structure ActionTable.Exact (g : Grammar) (automaton : Automaton) (table : ActionTable) : Prop where
  length_actions : table.actions.length = automaton.states.length
  length_gotos : table.gotos.length = automaton.states.length
  mem_cell_iff : ∀ (u : Nat) (row : ActionRow) (t : SymbolId) (a : Action),
    table.actions[u]? = some row → (a ∈ row.cell t ↔ automaton.Applies g u t a)
  goto_iff : ∀ (u : Nat) (gotos : GotoRow) (s : SymbolId) (v : Nat),
    table.gotos[u]? = some gotos → (get? s gotos = some v ↔
      g.isNonTerminal s ∧ ∃ state, automaton.states[u]? = some state ∧ (s, v) ∈ state.edges)
  clean : ∀ row ∈ table.actions, row.Clean
  isLiteral : ∀ row ∈ table.actions, ∀ cell ∈ row, g.isLiteral cell.1
  hasAscendingKeys : ∀ gotos ∈ table.gotos, HasAscendingKeys gotos
  isNonTerminal : ∀ gotos ∈ table.gotos, ∀ entry ∈ gotos, g.isNonTerminal entry.1
  isSLR1_iff_conflicts : table.isSLR1 ↔ table.conflicts g = []
  isSLR1_iff_applies : table.isSLR1 ↔ ∀ u < automaton.states.length, ∀ t a b,
    automaton.Applies g u t a → automaton.Applies g u t b → a = b

/-- **The SLR(1) table of a built grammar says exactly what applies**: there is a row of each kind
for each state, the cells hold the shifts, reductions and acceptance that apply, each once, and
there is no conflict exactly when no two different actions apply together. -/
theorem Grammar.Built.actionTable_exact (hg : g.Built) :
    ∃ table, g.automaton.actionTable g = .ok table ∧ table.Exact g g.automaton := by
  have hwell := hg.wellFormed
  have ha := hwell.automaton_complete
  obtain ⟨sets, hsets, -⟩ := hwell.exists_sets
  have hclean : ∀ row ∈ g.automaton.states.map (actionRow g sets), row.Clean :=
    hwell.clean_of_mem_rows
  have hlength : (g.automaton.states.map (actionRow g sets)).length = g.automaton.states.length :=
    List.length_map _
  have hcell (u : Nat) (row : ActionRow) (t : SymbolId) (a : Action)
      (hrow : (g.automaton.states.map (actionRow g sets))[u]? = some row) :
      a ∈ row.cell t ↔ g.automaton.Applies g u t a := by
    rw [List.getElem?_map] at hrow
    obtain ⟨state, hstate, rfl⟩ := Option.map_eq_some_iff.mp hrow
    exact hwell.mem_cell_iff_applies hsets hstate
  refine ⟨_, g.automaton.actionTable_eq_ok hsets, ?_⟩
  constructor
  case length_actions => exact hlength
  case length_gotos => exact List.length_map _
  case mem_cell_iff => exact hcell
  case goto_iff =>
    intro u gotos s v hgotos
    rw [List.getElem?_map] at hgotos
    obtain ⟨state, hstate, rfl⟩ := Option.map_eq_some_iff.mp hgotos
    exact ha.get?_gotoRow_iff hstate
  case clean => exact hclean
  case isLiteral =>
    intro row hrow cell hmem
    obtain ⟨u, hu⟩ := List.getElem?_of_mem hrow
    obtain ⟨a, ha⟩ := List.exists_mem_of_ne_nil _ ((hclean row hrow).ne_nil cell hmem)
    rw [← (hclean row hrow).cell_eq hmem] at ha
    exact hwell.isLiteral_of_applies ((hcell u row cell.1 a hu).mp ha)
  case hasAscendingKeys =>
    intro gotos hgotos
    obtain ⟨state, hstate, rfl⟩ := List.mem_map.mp hgotos
    exact hasAscendingKeys_gotoRow g (ha.hasAscendingKeys hstate)
  case isNonTerminal =>
    intro gotos hgotos entry hentry
    obtain ⟨state, -, rfl⟩ := List.mem_map.mp hgotos
    exact (List.mem_filter.mp hentry).2
  case isSLR1_iff_conflicts => exact ActionTable.isSLR1_iff_conflicts_eq_nil
  case isSLR1_iff_applies => exact ActionTable.isSLR1_iff_forall_applies hlength hcell hclean

theorem Grammar.actionTable_exact_nested : ∃ table,
    nested.automaton.actionTable nested = .ok table ∧ table.Exact nested nested.automaton :=
  nested_built.actionTable_exact

end GrammarTables
