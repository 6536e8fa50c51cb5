import GrammarTables.Proofs.Automaton.State
import Mathlib.Data.Finset.Powerset

/-!
# Proofs/Automaton/Explore — the automaton has all its states

States are only ever added, and the edges found lead to the states known by the right kernels, so
what has been found stays right (`EdgesTo.mono`).  Kernels are distinct sets of items of the
grammar, so there are no more states than the exploration goes through (`Collected.length_le`), and
in the end all of them have their edges (`WellFormed.automaton_complete`).
-/

namespace GrammarTables

variable {g : Grammar} {states states' : List State} {state : State} {kernel : List Item}
  {kernels : List (SymbolId × List Item)} {edges : List (SymbolId × Nat)} {number v : Nat}

/-! ## Edges -/

/-- Each edge leads to the state known by the kernel at its place. -/
def EdgesTo (states : List State) (edges : List (SymbolId × Nat))
    (kernels : List (SymbolId × List Item)) : Prop :=
  List.Forall₂ (fun edge entry =>
    edge.1 = entry.1 ∧ (states.map State.kernel)[edge.2]? = some entry.2) edges kernels

theorem getElem?_eq_of_grows {α : Type} {as bs : List α} (h : as <+: bs) {n : Nat}
    (hn : n < as.length) : bs[n]? = as[n]? :=
  (List.prefix_iff_getElem?.mp h n hn).trans (List.getElem?_eq_getElem hn).symm

theorem getElem?_of_grows {α : Type} {as bs : List α} (h : as <+: bs) {n : Nat} {a : α}
    (ha : as[n]? = some a) : bs[n]? = some a :=
  (getElem?_eq_of_grows h (List.getElem?_eq_some_iff.mp ha).1).trans ha

/-- **Edges stay right when states are added.** -/
theorem EdgesTo.mono (h : EdgesTo states edges kernels) (hgrow : states <+: states') :
    EdgesTo states' edges kernels :=
  h.imp fun _ _ ⟨hsymbol, hkernel⟩ => ⟨hsymbol, getElem?_of_grows (hgrow.map _) hkernel⟩

theorem EdgesTo.keys_eq (h : EdgesTo states edges kernels) :
    edges.map (·.1) = kernels.map (·.1) := by
  induction h with
  | nil => rfl
  | cons hedge _ ih => rw [List.map_cons, List.map_cons, hedge.1, ih]

theorem EdgesTo.exists_edge (h : EdgesTo states edges kernels) {s : SymbolId}
    (hmem : (s, kernel) ∈ kernels) :
    ∃ v, (s, v) ∈ edges ∧ (states.map State.kernel)[v]? = some kernel := by
  induction h with
  | nil => exact absurd hmem List.not_mem_nil
  | @cons edge entry _ _ hedge _ ih =>
    rcases List.mem_cons.mp hmem with rfl | hmem
    · obtain ⟨rfl, hkernel⟩ := hedge
      exact ⟨edge.2, List.mem_cons_self, hkernel⟩
    · obtain ⟨v, hv, hkernel⟩ := ih hmem
      exact ⟨v, List.mem_cons_of_mem _ hv, hkernel⟩

theorem EdgesTo.exists_kernel (h : EdgesTo states edges kernels) {s : SymbolId}
    (hmem : (s, v) ∈ edges) :
    ∃ kernel, (s, kernel) ∈ kernels ∧ (states.map State.kernel)[v]? = some kernel := by
  induction h with
  | nil => exact absurd hmem List.not_mem_nil
  | @cons edge entry _ _ hedge _ ih =>
    rcases List.mem_cons.mp hmem with rfl | hmem
    · obtain ⟨rfl, hkernel⟩ := hedge
      exact ⟨entry.2, List.mem_cons_self, hkernel⟩
    · obtain ⟨kernel, hentry, hkernel⟩ := ih hmem
      exact ⟨kernel, List.mem_cons_of_mem _ hentry, hkernel⟩

/-! ## States -/

/-- A kernel of items of the grammar. -/
structure IsKernel (g : Grammar) (kernel : List Item) : Prop where
  isAscending : Ascending.IsAscending kernel
  mem_items : ∀ i ∈ kernel, i ∈ g.items

/-- What holds of the states at any time: the first is known by the item in front of the start
symbol, no two are known by one kernel, and their items are those of their kernels. -/
structure Collected (g : Grammar) (states : List State) : Prop where
  start : (states.map State.kernel)[0]? = some [Item.first g augmentedOrdinal]
  isKernel : ∀ kernel ∈ states.map State.kernel, IsKernel g kernel
  nodup : (states.map State.kernel).Nodup
  items_eq : ∀ state ∈ states, state.items = (g.stateOf state.kernel).items

/-- **There are no more states than sets of items.** -/
theorem Collected.length_le (h : Collected g states) : states.length ≤ 2 ^ g.itemCount := by
  classical
  have hsets : ((states.map State.kernel).map List.toFinset).Nodup := by
    refine List.Nodup.map_on (fun as has bs hbs heq => ?_) h.nodup
    refine Ascending.eq_of_mem_iff (h.isKernel as has).isAscending (h.isKernel bs hbs).isAscending
      fun i => ?_
    rw [← List.mem_toFinset, heq, List.mem_toFinset]
  have hsubset : ((states.map State.kernel).map List.toFinset).toFinset ⊆
      g.items.toFinset.powerset := by
    intro set hset
    obtain ⟨kernel, hkernel, rfl⟩ := List.mem_map.mp (List.mem_toFinset.mp hset)
    refine Finset.mem_powerset.mpr fun i hi => List.mem_toFinset.mpr ?_
    exact (h.isKernel kernel hkernel).mem_items i (List.mem_toFinset.mp hi)
  have hcard := Finset.card_le_card hsubset
  rw [List.toFinset_card_of_nodup hsets, List.length_map, List.length_map,
    Finset.card_powerset] at hcard
  refine hcard.trans (Nat.pow_le_pow_right Nat.two_pos ?_)
  rw [← g.length_items]
  exact List.toFinset_card_le _

/-! ## Finding a state, then the edges of one -/

/-- A state known by a new kernel is added. -/
theorem Collected.snoc (h : Collected g states) (hkernel : IsKernel g kernel)
    (hnew : ∀ state ∈ states, decide (state.kernel = kernel) = false) :
    Collected g (states ++ [g.stateOf kernel]) := by
  have hkernels : (states ++ [g.stateOf kernel]).map State.kernel =
      states.map State.kernel ++ [kernel] := List.map_append
  constructor
  case start => exact getElem?_of_grows ((List.prefix_append _ _).map _) h.start
  case isKernel =>
    intro other hother
    rw [hkernels] at hother
    rcases List.mem_append.mp hother with hother | hother
    · exact h.isKernel other hother
    · exact List.mem_singleton.mp hother ▸ hkernel
  case nodup =>
    rw [hkernels]
    refine List.nodup_append.mpr ⟨h.nodup, List.nodup_singleton _, fun other hother new hmem => ?_⟩
    obtain ⟨state, hstate, rfl⟩ := List.mem_map.mp hother
    rw [List.mem_singleton.mp hmem]
    exact of_decide_eq_false (hnew state hstate)
  case items_eq =>
    intro state hstate
    rcases List.mem_append.mp hstate with hstate | hstate
    · exact h.items_eq state hstate
    · rw [List.mem_singleton.mp hstate]
      rfl

theorem Collected.findState (h : Collected g states) (hkernel : IsKernel g kernel) :
    Collected g (findState g states kernel).1 ∧ states <+: (findState g states kernel).1 ∧
      ((findState g states kernel).1.map State.kernel)[(findState g states kernel).2]? =
        some kernel := by
  rw [GrammarTables.findState]
  split
  · next number hfound =>
    obtain ⟨hlt, hkernel, -⟩ := List.findIdx?_eq_some_iff_getElem.mp hfound
    refine ⟨h, List.prefix_rfl, ?_⟩
    rw [List.getElem?_map, List.getElem?_eq_getElem hlt, Option.map_some, of_decide_eq_true hkernel]
  · next hnone =>
    exact ⟨h.snoc hkernel (List.findIdx?_eq_none_iff.mp hnone), List.prefix_append _ _,
      by simp [Grammar.stateOf]⟩

theorem Collected.findEdges (h : Collected g states)
    (hkernels : ∀ entry ∈ kernels, IsKernel g entry.2) :
    Collected g (findEdges g states kernels).1 ∧ states <+: (findEdges g states kernels).1 ∧
      EdgesTo (findEdges g states kernels).1 (findEdges g states kernels).2 kernels := by
  induction kernels generalizing states with
  | nil => exact ⟨h, List.prefix_rfl, .nil⟩
  | cons entry kernels ih =>
    obtain ⟨s, kernel⟩ := entry
    obtain ⟨hstate, hgrow, hkernel⟩ := h.findState (hkernels _ List.mem_cons_self)
    obtain ⟨hstates, hgrow', hedges⟩ := ih hstate fun entry hmem =>
      hkernels entry (List.mem_cons_of_mem _ hmem)
    exact ⟨hstates, hgrow.trans hgrow',
      .cons ⟨rfl, getElem?_of_grows (hgrow'.map _) hkernel⟩ hedges⟩

/-! ## Exploring -/

/-- The states below `number` have their edges. -/
def Explored (g : Grammar) (number : Nat) (states : List State) : Prop :=
  ∀ u < number, ∀ state, states[u]? = some state →
    EdgesTo states state.edges (g.successors state.items)

/-- The kernels that a state leads to are kernels of the grammar. -/
theorem Collected.isKernel_successors (hg : g.WellFormed) (h : Collected g states)
    (hstate : state ∈ states) : ∀ entry ∈ g.successors state.items, IsKernel g entry.2 := by
  intro ⟨s, kernel⟩ hentry
  have hlead := g.leadTo_successors state.items
  have hget := (Ascending.mem_iff_get?_eq_some hlead.hasAscendingKeys).mp hentry
  refine ⟨hlead.isAscending hget, fun j hj => ?_⟩
  obtain ⟨i, hi, hs, rfl⟩ := (hlead.mem_iff hget j).mp hj
  rw [h.items_eq state hstate] at hi
  have hkernel := h.isKernel state.kernel (List.mem_map_of_mem hstate)
  exact hg.mem_items_advance (hg.items_stateOf_subset hkernel.mem_items i hi) hs

/-- Giving a state edges changes no kernel. -/
theorem map_kernel_set (h : states[number]? = some state) :
    (states.set number { state with edges }).map State.kernel = states.map State.kernel := by
  refine List.ext_getElem? fun n => ?_
  rw [List.getElem?_map, List.getElem?_map, List.getElem?_set]
  split
  · next hn =>
    subst hn
    rw [h, if_pos (List.getElem?_eq_some_iff.mp h).1]
    rfl
  · rfl

/-- Giving a state edges keeps what has been collected. -/
theorem Collected.set (h : Collected g states) (hstate : states[number]? = some state) :
    Collected g (states.set number { state with edges }) where
  start := by
    rw [map_kernel_set hstate]
    exact h.start
  isKernel := by
    rw [map_kernel_set hstate]
    exact h.isKernel
  nodup := by
    rw [map_kernel_set hstate]
    exact h.nodup
  items_eq other hother := by
    rcases List.mem_or_eq_of_mem_set hother with hother | rfl
    · exact h.items_eq other hother
    · exact h.items_eq state (List.mem_of_getElem? hstate)

/-- **One state more gets its edges.** -/
theorem Explored.step (hg : g.WellFormed) (hc : Collected g states)
    (he : Explored g number states) (hstate : states[number]? = some state) :
    let found := findEdges g states (g.successors state.items)
    Collected g (found.1.set number { state with edges := found.2 }) ∧
      Explored g (number + 1) (found.1.set number { state with edges := found.2 }) := by
  intro found
  obtain ⟨hfound, hgrow, hedges⟩ :=
    hc.findEdges (hc.isKernel_successors hg (List.mem_of_getElem? hstate))
  have hstate' : found.1[number]? = some state := getElem?_of_grows hgrow hstate
  refine ⟨hfound.set hstate', fun u hu other hother => ?_⟩
  rw [EdgesTo, map_kernel_set hstate']
  rw [List.getElem?_set] at hother
  split at hother
  · next hn =>
    rw [if_pos (List.getElem?_eq_some_iff.mp hstate').1] at hother
    obtain rfl := Option.some.inj hother
    exact hedges
  · next hn =>
    have hlt : u < number := Nat.lt_of_le_of_ne (Nat.le_of_lt_succ hu) (Ne.symm hn)
    have hlength := hlt.trans (List.getElem?_eq_some_iff.mp hstate).1
    rw [getElem?_eq_of_grows hgrow hlength] at hother
    exact (he u hlt other hother).mono hgrow

/-- **The states have their edges as far as the exploration goes.** -/
theorem Explored.explore (fuel : Nat) (hg : g.WellFormed) (hc : Collected g states)
    (he : Explored g number states) : Collected g (explore g fuel number states) ∧
      Explored g (number + fuel) (explore g fuel number states) := by
  induction fuel generalizing number states with
  | zero => exact ⟨hc, he⟩
  | succ fuel ih =>
    rw [GrammarTables.explore]
    split
    · next hnone =>
      refine ⟨hc, fun u _ state hstate => he u ?_ state hstate⟩
      have hlength := List.getElem?_eq_none_iff.mp hnone
      exact (List.getElem?_eq_some_iff.mp hstate).1.trans_le hlength
    · next state hstate =>
      obtain ⟨hc', he'⟩ := he.step hg hc hstate
      rw [Nat.add_comm fuel 1, ← Nat.add_assoc]
      exact ih hc' he'

/-! ## The automaton -/

/-- The automaton has all its states, and they have all their edges. -/
structure Automaton.Complete (g : Grammar) (automaton : Automaton) : Prop where
  collected : Collected g automaton.states
  edgesTo : ∀ state ∈ automaton.states,
    EdgesTo automaton.states state.edges (g.successors state.items)

/-- The exploration starts with the state known by the item in front of the start symbol. -/
theorem Grammar.WellFormed.collected_start (hg : g.WellFormed) :
    Collected g [g.stateOf [Item.first g augmentedOrdinal]] := by
  constructor
  case start => rfl
  case nodup => exact List.nodup_singleton _
  case items_eq => exact fun state hstate => by rw [List.mem_singleton.mp hstate]; rfl
  case isKernel =>
    intro kernel hkernel
    rw [List.mem_singleton.mp hkernel]
    exact ⟨List.pairwise_singleton _ _, fun i hi =>
      List.mem_singleton.mp hi ▸ hg.mem_items_augmented⟩

/-- **The automaton of a well-formed grammar is complete.** -/
theorem Grammar.WellFormed.automaton_complete (hg : g.WellFormed) : g.automaton.Complete g := by
  obtain ⟨hc, he⟩ := Explored.explore (2 ^ g.itemCount) hg hg.collected_start
    fun u hu => absurd hu (Nat.not_lt_zero u)
  refine ⟨hc, fun state hstate => ?_⟩
  obtain ⟨u, hu⟩ := List.getElem?_of_mem hstate
  refine he u ?_ state hu
  rw [Nat.zero_add]
  exact (List.getElem?_eq_some_iff.mp hu).1.trans_le hc.length_le

namespace Automaton.Complete

variable {automaton : Automaton} {i : Item} {s : SymbolId} (ha : automaton.Complete g)

include ha

/-- The edges of a state are a map. -/
theorem hasAscendingKeys (hstate : state ∈ automaton.states) :
    Ascending.HasAscendingKeys state.edges := by
  rw [Ascending.HasAscendingKeys, (ha.edgesTo state hstate).keys_eq]
  exact (g.leadTo_successors state.items).hasAscendingKeys

/-- The start state is known by the item in front of the start symbol. -/
theorem exists_kernel_start : ∃ state, automaton.states[automaton.start]? = some state ∧
    state.kernel = [Item.first g augmentedOrdinal] := by
  have hstart := ha.collected.start
  rw [List.getElem?_map, Option.map_eq_some_iff] at hstart
  exact hstart

/-- The start state has the item in front of the start symbol. -/
theorem exists_start : ∃ state, automaton.states[automaton.start]? = some state ∧
    Item.first g augmentedOrdinal ∈ state.items := by
  obtain ⟨state, hstate, hkernel⟩ := ha.exists_kernel_start
  refine ⟨state, hstate, List.mem_append_left _ ?_⟩
  rw [hkernel]
  exact List.mem_singleton_self _

/-- **A symbol after a dot has an edge, and the dot moves on along it.** -/
theorem exists_edge (hstate : state ∈ automaton.states) (hi : i ∈ state.items)
    (hs : i.next? g = some s) : ∃ v state', (s, v) ∈ state.edges ∧
      automaton.states[v]? = some state' ∧ i.advance g ∈ state'.items := by
  have hlead := g.leadTo_successors state.items
  obtain ⟨kernel, hkernel⟩ := hlead.exists_iff.mpr ⟨i, hi, hs⟩
  obtain ⟨v, hv, hfound⟩ := (ha.edgesTo state hstate).exists_edge
    ((Ascending.mem_iff_get?_eq_some hlead.hasAscendingKeys).mpr hkernel)
  rw [List.getElem?_map, Option.map_eq_some_iff] at hfound
  obtain ⟨state', hstate', rfl⟩ := hfound
  exact ⟨v, state', hv, hstate', List.mem_append_left _
    ((hlead.mem_iff hkernel _).mpr ⟨i, hi, hs, rfl⟩)⟩

/-- **A non-terminal after a dot has the first items of all its productions.** -/
theorem first_mem_items (hg : g.WellFormed) {p : Production} (hp : p ∈ g.productions)
    (hstate : state ∈ automaton.states) (hi : i ∈ state.items) (hnext : i.next? g = some p.left) :
    Item.first g p.ordinal ∈ state.items := by
  rw [ha.collected.items_eq state hstate] at hi ⊢
  exact hg.first_mem_items_stateOf hp hi hnext

end Automaton.Complete

end GrammarTables
