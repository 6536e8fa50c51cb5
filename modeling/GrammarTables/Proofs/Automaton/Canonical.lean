import GrammarTables.Proofs.Automaton.Explore

/-!
# Proofs/Automaton/Canonical — the automaton is the canonical LR(0) collection

The items of a grammar are themselves the states of an automaton that need not be deterministic
(`Grammar.Reaches`): it starts in front of the start symbol, goes from a dot before a non-terminal
to the first items of its productions without reading, and reads the symbol after a dot.  The LR(0)
automaton is what the subset construction makes of it (`Automaton.Canonical`).  Three inputs.

**Opening** (`mem_items_stateOf_iff_opens`).  The items of a state are those that its kernel opens,
and the items that a word reaches are those opened by what its last symbol was read from
(`reaches_iff_opens`), so along a path kernels and items agree, symbol by symbol
(`Automaton.Complete.exists_of_path`).

**Discovery** (`Discovered`).  A state other than the first is there because of an edge from a state
explored before it, so a path leads to it.

**The end of the exploration** (`Explores`).  Stated without a bound on the number of states, the
exploration comes to an end, for there are no more states than sets of items.
-/

namespace GrammarTables

/-! ## The item automaton -/

/-- A dot put at place `n` of a right side comes to rest at `m`, behind the empty strings that
follow. -/
inductive RestsAt (right : List SymbolId) : Nat → Nat → Prop
  | here {n : Nat} (h : right[n]? ≠ some epsilonId) : RestsAt right n n
  | past {n m : Nat} (h : right[n]? = some epsilonId) (hrest : RestsAt right (n + 1) m) :
    RestsAt right n m

namespace Grammar

/-- The right sides by ordinal, with the production that leads to the start symbol. -/
inductive HasRight (g : Grammar) : Nat → List SymbolId → Prop
  | start : HasRight g augmentedOrdinal [g.start]
  | production {p : Production} (hp : p ∈ g.productions) : HasRight g p.ordinal p.right

/-- Reading `w`, the item automaton can reach the item. -/
inductive Reaches (g : Grammar) : List SymbolId → Item → Prop
  | start : Reaches g [] ⟨augmentedOrdinal, 0⟩
  /-- A dot before a non-terminal goes without reading to the front of its productions. -/
  | expand {w right : List SymbolId} {i : Item} {p : Production} {m : Nat} (h : Reaches g w i)
    (hright : g.HasRight i.ordinal right) (hp : p ∈ g.productions)
    (hnext : right[i.position]? = some p.left) (hm : RestsAt p.right 0 m) :
    Reaches g w ⟨p.ordinal, m⟩
  /-- The symbol after a dot is read. -/
  | read {w right : List SymbolId} {i : Item} {s : SymbolId} {m : Nat} (h : Reaches g w i)
    (hright : g.HasRight i.ordinal right) (hnext : right[i.position]? = some s)
    (hm : RestsAt right (i.position + 1) m) : Reaches g (w ++ [s]) ⟨i.ordinal, m⟩

end Grammar

/-- A path from the start state to state `u` along edges labelled `w`. -/
inductive Automaton.Path (automaton : Automaton) : List SymbolId → Nat → Prop
  | nil : Path automaton [] automaton.start
  | snoc {w : List SymbolId} {u v : Nat} {s : SymbolId} {state : State} (h : Path automaton w u)
    (hstate : automaton.states[u]? = some state) (hedge : (s, v) ∈ state.edges) :
    Path automaton (w ++ [s]) v

variable {g : Grammar} {i j : Item} {p : Production} {s : SymbolId} {w : List SymbolId}
  {states states' : List State} {state : State} {number u v : Nat}

/-! ## Dots at rest -/

theorem restsAt_skipEpsilon (right : List SymbolId) (n : Nat) :
    RestsAt right n (skipEpsilon right n) := by
  by_cases h : right[n]? = some epsilonId
  · have hlt : n < right.length := (List.getElem?_eq_some_iff.mp h).1
    rw [skipEpsilon_eq_succ h]
    exact .past h (restsAt_skipEpsilon right (n + 1))
  · rw [skipEpsilon_eq_self h]
    exact .here h
termination_by right.length - n

/-- **A dot rests where the skipping of empty strings puts it.** -/
theorem restsAt_iff {right : List SymbolId} {n m : Nat} :
    RestsAt right n m ↔ skipEpsilon right n = m := by
  constructor
  · intro h
    induction h with
    | here h => exact skipEpsilon_eq_self h
    | past h _ ih => rw [skipEpsilon_eq_succ h, ih]
  · rintro rfl
    exact restsAt_skipEpsilon right n

theorem RestsAt.getElem?_ne {right : List SymbolId} {n m : Nat} (h : RestsAt right n m) :
    right[m]? ≠ some epsilonId := by
  induction h with
  | here h => exact h
  | past _ _ ih => exact ih

namespace Grammar

theorem HasRight.itemRight_eq (hg : g.WellFormed) {ordinal : Nat} {right : List SymbolId}
    (h : g.HasRight ordinal right) : g.itemRight ordinal = right := by
  cases h with
  | start => exact itemRight_augmented
  | production hp => exact hg.itemRight_ordinal hp

theorem hasRight_of_next? (h : i.next? g = some s) :
    g.HasRight i.ordinal (g.itemRight i.ordinal) := by
  rw [Item.next?, itemRight] at h
  rw [itemRight]
  split at h
  · next haugmented =>
    rw [haugmented]
    exact .start
  · next haugmented =>
    rw [if_neg haugmented]
    cases hp : g.production? i.ordinal with
    | none =>
      rw [hp] at h
      simp at h
    | some p =>
      obtain ⟨hmem, hordinal⟩ := mem_of_production? hp
      rw [← hordinal]
      exact .production hmem

theorem HasRight.next?_eq (hg : g.WellFormed) {ordinal n : Nat} {right : List SymbolId}
    (h : g.HasRight ordinal right) : Item.next? g ⟨ordinal, n⟩ = right[n]? := by
  rw [Item.next?, h.itemRight_eq hg]

theorem HasRight.advance_eq (hg : g.WellFormed) {right : List SymbolId} {m : Nat}
    (h : g.HasRight i.ordinal right) (hm : RestsAt right (i.position + 1) m) :
    i.advance g = ⟨i.ordinal, m⟩ := by
  rw [Item.advance, h.itemRight_eq hg, restsAt_iff.mp hm]

theorem WellFormed.first_eq (hg : g.WellFormed) (hp : p ∈ g.productions) {m : Nat}
    (hm : RestsAt p.right 0 m) : Item.first g p.ordinal = ⟨p.ordinal, m⟩ := by
  rw [hg.first_ordinal hp, restsAt_iff.mp hm]

theorem Reaches.first (h : g.Reaches w i) (hg : g.WellFormed) (hp : p ∈ g.productions)
    (hnext : i.next? g = some p.left) : g.Reaches w (Item.first g p.ordinal) := by
  rw [hg.first_ordinal hp]
  exact .expand h (hasRight_of_next? hnext) hp hnext (restsAt_skipEpsilon p.right 0)

theorem Reaches.advance (h : g.Reaches w i) (hnext : i.next? g = some s) :
    g.Reaches (w ++ [s]) (i.advance g) :=
  .read h (hasRight_of_next? hnext) hnext (restsAt_skipEpsilon _ _)

/-- **No dot that is reached stands before an empty string.** -/
theorem Reaches.next?_ne (h : g.Reaches w i) (hg : g.WellFormed) :
    i.next? g ≠ some epsilonId := by
  cases h with
  | start =>
    exact fun h => hg.ne_epsilon_of_isNonTerminal hg.start_nonTerminal (Option.some.inj h)
  | expand _ _ hp _ hm =>
    rw [(HasRight.production hp).next?_eq hg]
    exact hm.getElem?_ne
  | read _ hright _ hm =>
    rw [HasRight.next?_eq hg hright]
    exact hm.getElem?_ne

/-! ## Opening -/

/-- The given items, and the first items of the non-terminals after their dots and so on. -/
inductive Opens (g : Grammar) (seeds : Item → Prop) : Item → Prop
  | seed {i : Item} (h : seeds i) : Opens g seeds i
  | first {i : Item} {p : Production} (h : Opens g seeds i) (hp : p ∈ g.productions)
    (hnext : i.next? g = some p.left) : Opens g seeds (Item.first g p.ordinal)

/-- **The items of a state are those that its kernel opens.** -/
theorem WellFormed.mem_items_stateOf_iff_opens (hg : g.WellFormed) {kernel : List Item} :
    i ∈ (g.stateOf kernel).items ↔ g.Opens (· ∈ kernel) i := by
  constructor
  · intro hi
    have hlefts : ∀ s ∈ g.closureLefts kernel,
        ∃ j, g.Opens (· ∈ kernel) j ∧ j.next? g = some s := by
      refine closureLefts_induction (fun j hj s hs => ?_) fun q hq ⟨j, hj, hnext⟩ s hs => ?_
      · exact ⟨j, .seed hj, (Option.filter_eq_some_iff.mp hs).1⟩
      · rw [← hg.nextNonTerminal?_first hq] at hs
        exact ⟨Item.first g q.ordinal, .first hj hq hnext, (Option.filter_eq_some_iff.mp hs).1⟩
    rcases hg.mem_items_stateOf.mp hi with hi | ⟨p, hp, hleft, rfl⟩
    · exact .seed hi
    · obtain ⟨j, hj, hnext⟩ := hlefts p.left hleft
      exact .first hj hp hnext
  · intro h
    induction h with
    | seed h => exact List.mem_append_left _ h
    | first _ hp hnext ih => exact hg.first_mem_items_stateOf hp ih hnext

/-- What the last symbol of a word is read into; the item in front of the start symbol for no
word. -/
def Seeds (g : Grammar) (w : List SymbolId) (j : Item) : Prop :=
  (w = [] ∧ j = Item.first g augmentedOrdinal) ∨
    ∃ v s i, w = v ++ [s] ∧ g.Reaches v i ∧ i.next? g = some s ∧ i.advance g = j

theorem seeds_nil_iff : g.Seeds [] j ↔ j = Item.first g augmentedOrdinal := by
  simp [Seeds]

theorem seeds_snoc_iff : g.Seeds (w ++ [s]) j ↔
    ∃ i, g.Reaches w i ∧ i.next? g = some s ∧ i.advance g = j := by
  constructor
  · rintro (⟨hnil, -⟩ | ⟨v, t, i, hw, hi, hnext, hadvance⟩)
    · exact absurd hnil (by simp)
    · obtain ⟨rfl, ht⟩ := List.append_inj' hw rfl
      obtain rfl := List.head_eq_of_cons_eq ht
      exact ⟨i, hi, hnext, hadvance⟩
  · rintro ⟨i, hi, hnext, hadvance⟩
    exact Or.inr ⟨w, s, i, rfl, hi, hnext, hadvance⟩

/-- **The items that a word reaches are opened by what its last symbol is read into.** -/
theorem WellFormed.reaches_iff_opens (hg : g.WellFormed) :
    g.Reaches w i ↔ g.Opens (g.Seeds w) i := by
  constructor
  · intro h
    induction h with
    | start => exact .seed (seeds_nil_iff.mpr hg.first_augmented.symm)
    | expand _ hright hp hnext hm ih =>
      rw [← hg.first_eq hp hm]
      exact .first ih hp ((hright.next?_eq hg).trans hnext)
    | read h hright hnext hm _ =>
      exact .seed (seeds_snoc_iff.mpr
        ⟨_, h, (hright.next?_eq hg).trans hnext, hright.advance_eq hg hm⟩)
  · intro h
    induction h with
    | seed h =>
      rcases h with ⟨rfl, rfl⟩ | ⟨v, s, i, rfl, hi, hnext, rfl⟩
      · rw [hg.first_augmented]
        exact .start
      · exact hi.advance hnext
    | first _ hp hnext ih => exact ih.first hg hp hnext

end Grammar

/-! ## The end of the exploration -/

/-- The exploration without a bound: from the states before state `number` gets its edges to those
when there is no state of that number. -/
inductive Explores (g : Grammar) : Nat → List State → List State → Prop
  | done {number : Nat} {states : List State} (h : states[number]? = none) :
    Explores g number states states
  | step {number : Nat} {states states' : List State} {state : State}
    (hstate : states[number]? = some state)
    (h : Explores g (number + 1)
      ((findEdges g states (g.successors state.items)).1.set number
        { state with edges := (findEdges g states (g.successors state.items)).2 }) states') :
    Explores g number states states'

/-- **The exploration ends** when its bound is that of the number of states. -/
theorem explores_explore {fuel : Nat} (hg : g.WellFormed) (hc : Collected g states)
    (he : Explored g number states) (hfuel : 2 ^ g.itemCount ≤ number + fuel) :
    Explores g number states (explore g fuel number states) := by
  induction fuel generalizing number states with
  | zero =>
    exact .done (List.getElem?_eq_none_iff.mpr (hc.length_le.trans hfuel))
  | succ fuel ih =>
    rw [explore]
    split
    · next hnone => exact .done hnone
    · next state hstate =>
      obtain ⟨hc', he'⟩ := he.step hg hc hstate
      exact .step hstate (ih hc' he' (by omega))

/-- The states of the automaton are those found from the one that holds the item in front of the
start symbol. -/
theorem Grammar.WellFormed.explores (hg : g.WellFormed) :
    Explores g 0 [g.stateOf [Item.first g augmentedOrdinal]] g.automaton.states :=
  explores_explore hg hg.collected_start (fun u hu => absurd hu (Nat.not_lt_zero u))
    (Nat.zero_add _).ge

/-! ## Discovery -/

/-- Each state but the first has an edge from a state before it, among those below `number`. -/
def Discovered (number : Nat) (states : List State) : Prop :=
  ∀ v, 0 < v → v < states.length → ∃ u < v, u < number ∧
    ∃ state s, states[u]? = some state ∧ (s, v) ∈ state.edges

/-- A state that is not there yet is added and found. -/
theorem findState_grows (g : Grammar) (states : List State) (kernel : List Item) :
    states <+: (findState g states kernel).1 ∧ ∀ v, states.length ≤ v →
      v < (findState g states kernel).1.length → v = (findState g states kernel).2 := by
  rw [findState]
  split
  · exact ⟨List.prefix_rfl, fun v hv hlt => absurd hlt (Nat.not_lt.mpr hv)⟩
  · refine ⟨List.prefix_append _ _, fun v hv hlt => ?_⟩
    rw [List.length_append, List.length_singleton] at hlt
    exact Nat.le_antisymm (Nat.le_of_lt_succ hlt) hv

/-- **States are added for the edges found**: each new one has an edge to it. -/
theorem findEdges_grows (g : Grammar) (states : List State)
    (kernels : List (SymbolId × List Item)) :
    states <+: (findEdges g states kernels).1 ∧ ∀ v, states.length ≤ v →
      v < (findEdges g states kernels).1.length → ∃ s, (s, v) ∈ (findEdges g states kernels).2 := by
  induction kernels generalizing states with
  | nil => exact ⟨List.prefix_rfl, fun v hv hlt => absurd hlt (Nat.not_lt.mpr hv)⟩
  | cons entry kernels ih =>
    obtain ⟨s, kernel⟩ := entry
    obtain ⟨hgrow, hfound⟩ := findState_grows g states kernel
    obtain ⟨hgrow', hedges⟩ := ih (findState g states kernel).1
    refine ⟨hgrow.trans hgrow', fun v hv hlt => ?_⟩
    by_cases hnew : v < (findState g states kernel).1.length
    · rw [hfound v hv hnew]
      exact ⟨s, List.mem_cons_self⟩
    · obtain ⟨t, hedge⟩ := hedges v (Nat.le_of_not_lt hnew) hlt
      exact ⟨t, List.mem_cons_of_mem _ hedge⟩

/-- One state more gets its edges, and with them come the states that they lead to. -/
theorem Discovered.step (h : Discovered number states) (hstate : states[number]? = some state) :
    Discovered (number + 1) ((findEdges g states (g.successors state.items)).1.set number
      { state with edges := (findEdges g states (g.successors state.items)).2 }) := by
  obtain ⟨hgrow, hedges⟩ := findEdges_grows g states (g.successors state.items)
  have hnumber : number < states.length := (List.getElem?_eq_some_iff.mp hstate).1
  intro v hpos hv
  rw [List.length_set] at hv
  by_cases hold : v < states.length
  · obtain ⟨u, huv, hu, other, s, hother, hedge⟩ := h v hpos hold
    refine ⟨u, huv, Nat.lt_succ_of_lt hu, other, s, ?_, hedge⟩
    rw [List.getElem?_set_ne (Nat.ne_of_gt hu), getElem?_eq_of_grows hgrow (huv.trans hold),
      hother]
  · obtain ⟨s, hedge⟩ := hedges v (Nat.le_of_not_lt hold) hv
    refine ⟨number, hnumber.trans_le (Nat.le_of_not_lt hold), Nat.lt_succ_self number,
      { state with edges := (findEdges g states (g.successors state.items)).2 }, s, ?_, hedge⟩
    rw [List.getElem?_set_self (hnumber.trans_le hgrow.length_le)]

/-- **At the end all states have been discovered.** -/
theorem Explores.discovered (h : Explores g number states states')
    (hstates : Discovered number states) : ∃ limit, Discovered limit states' := by
  induction h with
  | done => exact ⟨_, hstates⟩
  | step hstate _ ih => exact ih (hstates.step hstate)

/-! ## Paths -/

namespace Automaton.Complete

variable {automaton : Automaton} (ha : automaton.Complete g)

include ha

/-- An edge leads to the state known by the kernel that its symbol leads to. -/
theorem exists_of_edge (hstate : state ∈ automaton.states) (hedge : (s, v) ∈ state.edges) :
    ∃ next, automaton.states[v]? = some next ∧ (∃ i ∈ state.items, i.next? g = some s) ∧
      ∀ j, j ∈ next.kernel ↔ ∃ i ∈ state.items, i.next? g = some s ∧ i.advance g = j := by
  have hlead := g.leadTo_successors state.items
  obtain ⟨kernel, hentry, hkernel⟩ := (ha.edgesTo state hstate).exists_kernel hedge
  have hget := (Ascending.mem_iff_get?_eq_some hlead.hasAscendingKeys).mp hentry
  rw [List.getElem?_map, Option.map_eq_some_iff] at hkernel
  obtain ⟨next, hnext, rfl⟩ := hkernel
  exact ⟨next, hnext, hlead.exists_iff.mp ⟨_, hget⟩, hlead.mem_iff hget⟩

/-- With the kernel that a word is read into, a state has the items that the word reaches. -/
theorem mem_items_iff_of_kernel (hg : g.WellFormed) (hstate : state ∈ automaton.states)
    (hkernel : ∀ j, j ∈ state.kernel ↔ g.Seeds w j) : i ∈ state.items ↔ g.Reaches w i := by
  have hseeds : (· ∈ state.kernel) = g.Seeds w := funext fun j => propext (hkernel j)
  rw [ha.collected.items_eq state hstate, hg.mem_items_stateOf_iff_opens, hseeds,
    hg.reaches_iff_opens]

/-- At the end of a path is the kernel that its word is read into. -/
theorem exists_kernel_of_path (hg : g.WellFormed) (h : automaton.Path w u) :
    ∃ state, automaton.states[u]? = some state ∧ ∀ j, j ∈ state.kernel ↔ g.Seeds w j := by
  induction h with
  | nil =>
    obtain ⟨state, hstate, hkernel⟩ := ha.exists_kernel_start
    refine ⟨state, hstate, fun j => ?_⟩
    rw [hkernel, List.mem_singleton, Grammar.seeds_nil_iff]
  | @snoc w u v s state _ hstate hedge ih =>
    obtain ⟨_, hsame, hkernel⟩ := ih
    obtain rfl := Option.some.inj (hsame.symm.trans hstate)
    have hmem := List.mem_of_getElem? hstate
    have hitems (i : Item) := ha.mem_items_iff_of_kernel hg hmem hkernel (i := i)
    obtain ⟨next, hnext, -, hkernel⟩ := ha.exists_of_edge hmem hedge
    refine ⟨next, hnext, fun j => ?_⟩
    rw [hkernel, Grammar.seeds_snoc_iff]
    simp only [hitems]

/-- **Along a path the items are those that its word reaches.** -/
theorem exists_of_path (hg : g.WellFormed) (h : automaton.Path w u) :
    ∃ state, automaton.states[u]? = some state ∧ ∀ i, i ∈ state.items ↔ g.Reaches w i := by
  obtain ⟨state, hstate, hkernel⟩ := ha.exists_kernel_of_path hg h
  exact ⟨state, hstate, fun i =>
    ha.mem_items_iff_of_kernel hg (List.mem_of_getElem? hstate) hkernel⟩

/-- The symbol of an edge stands after the dot of an item that the word up to there reaches. -/
theorem exists_reaches_of_edge (hg : g.WellFormed) (h : automaton.Path w u)
    (hstate : automaton.states[u]? = some state) (hedge : (s, v) ∈ state.edges) :
    ∃ i, g.Reaches w i ∧ i.next? g = some s := by
  obtain ⟨_, hsame, hitems⟩ := ha.exists_of_path hg h
  obtain rfl := Option.some.inj (hsame.symm.trans hstate)
  obtain ⟨-, -, ⟨i, hi, hnext⟩, -⟩ := ha.exists_of_edge (List.mem_of_getElem? hstate) hedge
  exact ⟨i, (hitems i).mp hi, hnext⟩

/-- **Every item that a word reaches is at the end of a path.** -/
theorem exists_path_of_reaches (hg : g.WellFormed) (h : g.Reaches w i) :
    ∃ u, automaton.Path w u := by
  induction h with
  | start => exact ⟨automaton.start, .nil⟩
  | expand _ _ _ _ _ ih => exact ih
  | read h hright hnext _ ih =>
    obtain ⟨u, hpath⟩ := ih
    obtain ⟨state, hstate, hitems⟩ := ha.exists_of_path hg hpath
    obtain ⟨v, _, hedge, -, -⟩ := ha.exists_edge (List.mem_of_getElem? hstate)
      ((hitems _).mpr h) ((hright.next?_eq hg).trans hnext)
    exact ⟨v, .snoc hpath hstate hedge⟩

/-- The word of a path reaches an item. -/
theorem exists_reaches_of_path (hg : g.WellFormed) (h : automaton.Path w u) :
    ∃ i, g.Reaches w i := by
  cases h with
  | nil => exact ⟨_, .start⟩
  | snoc hpath hstate hedge =>
    obtain ⟨i, hi, hnext⟩ := ha.exists_reaches_of_edge hg hpath hstate hedge
    exact ⟨i.advance g, hi.advance hnext⟩

/-- **A word has at most one path.** -/
theorem eq_of_path (h : automaton.Path w u) (h' : automaton.Path w v) : u = v := by
  induction h generalizing v with
  | nil =>
    generalize hw : ([] : List SymbolId) = w at h'
    cases h' with
    | nil => rfl
    | snoc _ _ _ => exact absurd hw (by simp)
  | @snoc w u u' s state _ hstate hedge ih =>
    generalize hw : w ++ [s] = w' at h'
    cases h' with
    | nil => exact absurd hw (by simp)
    | snoc hpath' hstate' hedge' =>
      obtain ⟨rfl, hs⟩ := List.append_inj' hw rfl
      obtain rfl := List.head_eq_of_cons_eq hs
      obtain rfl := ih hpath'
      obtain rfl := Option.some.inj (hstate.symm.trans hstate')
      have hkeys := ha.hasAscendingKeys (List.mem_of_getElem? hstate)
      exact Option.some.inj (((Ascending.mem_iff_get?_eq_some hkeys).mp hedge).symm.trans
        ((Ascending.mem_iff_get?_eq_some hkeys).mp hedge'))

/-- States with the same items in their kernels are one state. -/
theorem eq_of_kernel {state' : State} (hstate : automaton.states[u]? = some state)
    (hstate' : automaton.states[v]? = some state')
    (h : ∀ i, i ∈ state.kernel ↔ i ∈ state'.kernel) : u = v := by
  have hmem := List.mem_map_of_mem (f := State.kernel) (List.mem_of_getElem? hstate)
  have hmem' := List.mem_map_of_mem (f := State.kernel) (List.mem_of_getElem? hstate')
  have heq : state.kernel = state'.kernel := Ascending.eq_of_mem_iff
    (ha.collected.isKernel _ hmem).isAscending (ha.collected.isKernel _ hmem').isAscending h
  have hlt : u < (automaton.states.map State.kernel).length := by
    rw [List.length_map]
    exact (List.getElem?_eq_some_iff.mp hstate).1
  refine (List.getElem?_inj hlt ha.collected.nodup).mp ?_
  rw [List.getElem?_map, List.getElem?_map, hstate, hstate', Option.map_some, Option.map_some, heq]

/-- The extension holds no item of the kernel. -/
theorem disjoint (hstate : state ∈ automaton.states) :
    List.Disjoint state.kernel state.extend := by
  intro i hkernel hextend
  have hitems := ha.collected.items_eq state hstate
  have hextend' : state.extend = (g.stateOf state.kernel).extend :=
    List.append_cancel_left hitems
  rw [hextend'] at hextend
  simpa [hkernel] using (List.mem_filter.mp hextend).2

end Automaton.Complete

/-- With an edge to each state from one before it, each state is at the end of a path. -/
theorem Discovered.exists_path {automaton : Automaton} (h : Discovered number automaton.states)
    (hu : u < automaton.states.length) : ∃ w, automaton.Path w u := by
  induction u using Nat.strong_induction_on with
  | _ u ih =>
    rcases Nat.eq_zero_or_pos u with rfl | hpos
    · exact ⟨[], .nil⟩
    · obtain ⟨t, htu, -, state, s, hstate, hedge⟩ := h u hpos hu
      obtain ⟨w, hpath⟩ := ih t htu (htu.trans hu)
      exact ⟨w ++ [s], .snoc hpath hstate hedge⟩

/-! ## The canonical collection -/

/-- The automaton is what the subset construction makes of the item automaton. -/
structure Automaton.Canonical (g : Grammar) (automaton : Automaton) : Prop where
  /-- The exploration ends, and with the states of the automaton. -/
  explores : Explores g 0 [g.stateOf [Item.first g augmentedOrdinal]] automaton.states
  /-- So do the rounds for what a kernel brings in. -/
  settles : ∀ kernel, settle? g.leftsRound (g.symbols.length + 1)
    (Ascending.ofList (kernel.filterMap (Item.nextNonTerminal? g))) = some (g.closureLefts kernel)
  eq_of_kernel : ∀ (u v : Nat) (state state' : State), automaton.states[u]? = some state →
    automaton.states[v]? = some state' → (∀ i, i ∈ state.kernel ↔ i ∈ state'.kernel) → u = v
  exists_path : ∀ u < automaton.states.length, ∃ w, automaton.Path w u
  edge_ne_epsilon : ∀ state ∈ automaton.states, ∀ edge ∈ state.edges, edge.1 ≠ epsilonId
  disjoint : ∀ state ∈ automaton.states, List.Disjoint state.kernel state.extend
  path_unique : ∀ w u v, automaton.Path w u → automaton.Path w v → u = v
  exists_path_iff : ∀ w, (∃ u, automaton.Path w u) ↔ ∃ i, g.Reaches w i
  mem_items_iff : ∀ w u, automaton.Path w u → ∃ state, automaton.states[u]? = some state ∧
    ∀ i, i ∈ state.items ↔ g.Reaches w i

/-- **The LR(0) automaton is the canonical collection**: it is found in finitely many steps, its
states are known by their kernels and all reachable, and along the symbols of a path they hold
exactly the items that the item automaton can reach by reading them. -/
theorem Grammar.Built.automaton_canonical (hg : g.Built) : g.automaton.Canonical g := by
  have hwell := hg.wellFormed
  have ha := hwell.automaton_complete
  have hexplores : Explores g 0 [g.stateOf [Item.first g augmentedOrdinal]] g.automaton.states :=
    explores_explore hwell hwell.collected_start (fun u hu => absurd hu (Nat.not_lt_zero u))
      (Nat.zero_add _).ge
  obtain ⟨limit, hdiscovered⟩ := hexplores.discovered fun v hpos hv =>
    absurd hv (Nat.not_lt.mpr hpos)
  constructor
  case explores => exact hexplores
  case settles => exact g.closureLefts_settle
  case eq_of_kernel => exact fun u v _ _ hstate hstate' => ha.eq_of_kernel hstate hstate'
  case exists_path => exact fun u hu => hdiscovered.exists_path hu
  case edge_ne_epsilon =>
    rintro state hstate ⟨s, v⟩ hedge rfl
    obtain ⟨u, hu⟩ := List.getElem?_of_mem hstate
    obtain ⟨w, hpath⟩ := hdiscovered.exists_path (List.getElem?_eq_some_iff.mp hu).1
    obtain ⟨i, hi, hnext⟩ := ha.exists_reaches_of_edge hwell hpath hu hedge
    exact hi.next?_ne hwell hnext
  case disjoint => exact fun _ hstate => ha.disjoint hstate
  case path_unique => exact fun w u v => ha.eq_of_path
  case exists_path_iff =>
    exact fun w => ⟨fun ⟨_, hpath⟩ => ha.exists_reaches_of_path hwell hpath,
      fun ⟨_, hi⟩ => ha.exists_path_of_reaches hwell hi⟩
  case mem_items_iff => exact fun w u => ha.exists_of_path hwell

theorem Grammar.automaton_canonical_tangled : tangled.automaton.Path [4] 3 ∧
    ∀ i, tangled.Reaches [4] i ↔ i = ⟨1, 1⟩ ∨ i = ⟨2, 1⟩ := by
  have hcanonical := tangled_built.automaton_canonical
  have hstart : tangled.automaton.states[0]? = some
      ⟨[⟨0, 0⟩], [⟨1, 0⟩, ⟨2, 1⟩, ⟨4, 0⟩, ⟨5, 0⟩], [(2, 1), (3, 2), (4, 3)]⟩ := rfl
  have hread : tangled.automaton.states[3]? = some ⟨[⟨1, 1⟩], [⟨2, 1⟩], [(4, 6)]⟩ := rfl
  have hpath : tangled.automaton.Path ([] ++ [4]) 3 := .snoc .nil hstart (by decide)
  refine ⟨hpath, fun i => ?_⟩
  obtain ⟨state, hstate, hitems⟩ := hcanonical.mem_items_iff [4] 3 hpath
  obtain rfl := Option.some.inj (hread.symm.trans hstate)
  rw [← hitems, State.items]
  simp

end GrammarTables
