import GrammarTables.Proofs.Automaton.Canonical
import Mathlib.Data.List.Shortlex

/-!
# Proofs/Automaton/Numbering — states are numbered in the order of their access words

Many words lead to a state; the least of them, shorter words coming first and words of one length
in the order of their symbols, is its access word (`Automaton.IsAccess`).  The numbers of the states
follow the order of their access words (`Automaton.InOrder`), so they can be told from the paths
alone.  Two inputs.

**Who a state was added for** (`AddedFor`).  A new state is added for one edge, and all edges before
that one — out of states with smaller numbers, or out of the same state on smaller symbols — lead to
states that are there already.  The exploration keeps this (`Numbered.step`).

**Discovery words** (`Automaton.Discovers`).  Going back from a state to the one it was added for
spells a word.  Along an edge the order of words is kept (`WordLt.snoc`), so discovery words are in
the order of the numbers, and by induction on a path no word that leads to a state is smaller.
-/

namespace GrammarTables

variable {g g' : Grammar} {states states' : List State} {state : State}
  {edges : List (SymbolId × Nat)} {number u u' v v' : Nat} {s s' : SymbolId}
  {w w' x : List SymbolId}

/-! ## The order of words -/

/-- Shorter words come first, words of one length in the order of their symbols from the left. -/
abbrev WordLt : List SymbolId → List SymbolId → Prop :=
  List.Shortlex (· < ·)

namespace WordLt

theorem trans (h : WordLt w w') (h' : WordLt w' x) : WordLt w x := by
  rcases List.shortlex_def.mp h with hlength | ⟨hlength, hlex⟩
  · rcases List.shortlex_def.mp h' with hlength' | ⟨hlength', -⟩
    · exact .of_length_lt (hlength.trans hlength')
    · exact .of_length_lt (hlength.trans_eq hlength')
  · rcases List.shortlex_def.mp h' with hlength' | ⟨hlength', hlex'⟩
    · exact .of_length_lt (hlength.trans_lt hlength')
    · exact .of_lex (hlength.trans hlength') (lt_trans (α := List SymbolId) hlex hlex')

/-- A smaller word stays smaller when each of the two gets one symbol more. -/
theorem snoc (h : WordLt w w') (s s' : SymbolId) : WordLt (w ++ [s]) (w' ++ [s']) := by
  rcases List.shortlex_def.mp h with hlength | ⟨hlength, hlex⟩
  · exact .of_length_lt (by simpa using hlength)
  · refine .of_lex (by simpa using hlength) ?_
    clear h
    induction hlex with
    | nil => exact absurd hlength (by simp)
    | cons _ ih => exact .cons (ih (by simpa using hlength))
    | rel h => exact .rel h

/-- After one word, a smaller symbol makes a smaller word. -/
theorem of_lt (w : List SymbolId) (h : s < s') : WordLt (w ++ [s]) (w ++ [s']) :=
  List.Shortlex.append_left ((List.shortlex_singleton_iff s s').mpr h) w

theorem asymm (h : WordLt w w') : ¬ WordLt w' w :=
  Std.Asymm.asymm _ _ h

end WordLt

/-! ## Who a state was added for -/

/-- State `v` was added for the edge on `s` out of state `u`: of the edges out of the states below
`number`, those that come before this one lead to states below `v`. -/
structure AddedFor (number : Nat) (states : List State) (v u : Nat) (s : SymbolId) : Prop where
  lt : u < v
  explored : u < number
  exists_edge : ∃ state, states[u]? = some state ∧ (s, v) ∈ state.edges
  lt_of_before : ∀ {u' : Nat} {state' : State} {s' : SymbolId} {v' : Nat}, u' < number →
    states[u']? = some state' → (s', v') ∈ state'.edges → u' < u ∨ u' = u ∧ s' < s → v' < v

/-- Each state but the first was added for an edge out of a state below `number`. -/
def Numbered (number : Nat) (states : List State) : Prop :=
  ∀ v, 0 < v → v < states.length → ∃ u s, AddedFor number states v u s

/-- A state is known before its edge is looked at, or it is the one added for this edge. -/
theorem findState_lt (g : Grammar) (states : List State) (kernel : List Item) :
    (findState g states kernel).2 < states.length ∨
      (findState g states kernel).2 = states.length ∧
        (findState g states kernel).1.length = states.length + 1 := by
  rw [findState]
  split
  · next found hfound => exact Or.inl (List.findIdx?_eq_some_iff_getElem.mp hfound).1
  · exact Or.inr ⟨rfl, by simp⟩

/-- **A new state is added for the first edge to it**: the edges found before that one lead to
states with smaller numbers. -/
theorem exists_first_edge (g : Grammar) (states : List State)
    (kernels : List (SymbolId × List Item)) (hv : states.length ≤ v)
    (hlt : v < (findEdges g states kernels).1.length) :
    ∃ before s after, (findEdges g states kernels).2 = before ++ (s, v) :: after ∧
      ∀ edge ∈ before, edge.2 < v := by
  induction kernels generalizing states with
  | nil => exact absurd hlt (Nat.not_lt.mpr hv)
  | cons entry kernels ih =>
    obtain ⟨s, kernel⟩ := entry
    have hgrow := (findState_grows g states kernel).1.length_le
    by_cases hnew : (findState g states kernel).2 = v
    · subst hnew
      exact ⟨[], s, _, rfl, nofun⟩
    · have hlength : (findState g states kernel).1.length ≤ v := by
        refine Nat.le_of_not_lt fun h => hnew ?_
        exact ((findState_grows g states kernel).2 v hv h).symm
      obtain ⟨before, t, after, hedges, hbefore⟩ := ih _ hlength hlt
      refine ⟨(s, (findState g states kernel).2) :: before, t, after, ?_, ?_⟩
      · rw [findEdges]
        dsimp only
        rw [hedges, List.cons_append]
      · intro edge hedge
        rcases List.mem_cons.mp hedge with rfl | hedge
        · rcases findState_lt g states kernel with h | ⟨h, h'⟩
          · exact h.trans_le hv
          · exact Nat.lt_of_lt_of_le (by omega) hlength
        · exact hbefore edge hedge

/-- In a map an entry with a smaller key stands before. -/
theorem mem_of_key_lt {before after : List (SymbolId × Nat)}
    (h : Ascending.HasAscendingKeys (before ++ (s, v) :: after)) {edge : SymbolId × Nat}
    (hedge : edge ∈ before ++ (s, v) :: after) (hlt : edge.1 < s) : edge ∈ before := by
  rcases List.mem_append.mp hedge with hedge | hedge
  · exact hedge
  · rcases List.mem_cons.mp hedge with rfl | hafter
    · exact absurd hlt (Nat.lt_irrefl _)
    · rw [Ascending.HasAscendingKeys, List.map_append, List.map_cons] at h
      have habove := (Ascending.isAscending_cons.mp (List.pairwise_append.mp h).2.1).1
      have hgt : s < edge.1 := Nat.compare_eq_lt.mp (habove edge.1 (List.mem_map_of_mem hafter))
      exact absurd hlt (Nat.lt_asymm hgt)

/-- Edges lead to states that are there. -/
theorem EdgesTo.lt_length {kernels : List (SymbolId × List Item)}
    (h : EdgesTo states edges kernels) (hedge : (s, v) ∈ edges) : v < states.length := by
  obtain ⟨kernel, -, hkernel⟩ := h.exists_kernel hedge
  rw [← List.length_map (f := State.kernel)]
  exact (List.getElem?_eq_some_iff.mp hkernel).1

/-- A state stays added for its edge when states from `number` on change. -/
theorem AddedFor.of_agrees (h : AddedFor number states v u s)
    (hold : ∀ n < number, states'[n]? = states[n]?) : AddedFor (number + 1) states' v u s := by
  obtain ⟨state, hstate, hedge⟩ := h.exists_edge
  refine ⟨h.lt, Nat.lt_succ_of_lt h.explored,
    ⟨state, (hold u h.explored).trans hstate, hedge⟩, ?_⟩
  intro u' state' s' v' _ hstate' hedge' hbefore
  have hu' : u' < number := by
    have := h.explored
    omega
  exact h.lt_of_before hu' ((hold u' hu').symm.trans hstate') hedge' hbefore

/-- **One state more gets its edges**: the states that come with them were added for these. -/
theorem Numbered.step (hg : g.WellFormed) (hc : Collected g states) (he : Explored g number states)
    (h : Numbered number states) (hstate : states[number]? = some state) :
    let found := findEdges g states (g.successors state.items)
    Numbered (number + 1) (found.1.set number { state with edges := found.2 }) := by
  intro found
  obtain ⟨-, hgrow, hedges⟩ :=
    hc.findEdges (hc.isKernel_successors hg (List.mem_of_getElem? hstate))
  have hnumber : number < states.length := (List.getElem?_eq_some_iff.mp hstate).1
  have hset : (found.1.set number { state with edges := found.2 })[number]? =
      some { state with edges := found.2 } :=
    List.getElem?_set_self (hnumber.trans_le hgrow.length_le)
  -- The states below `number` are as they were.
  have hold (n : Nat) (hn : n < number) :
      (found.1.set number { state with edges := found.2 })[n]? = states[n]? := by
    rw [List.getElem?_set_ne (Nat.ne_of_gt hn), getElem?_eq_of_grows hgrow (hn.trans hnumber)]
  intro v hpos hv
  rw [List.length_set] at hv
  by_cases hknown : v < states.length
  · obtain ⟨u, s, hadded⟩ := h v hpos hknown
    exact ⟨u, s, hadded.of_agrees hold⟩
  · obtain ⟨before, s, after, hsplit, hbefore⟩ :=
      exists_first_edge g states _ (Nat.le_of_not_lt hknown) hv
    have hkeys : Ascending.HasAscendingKeys (before ++ (s, v) :: after) := by
      rw [← hsplit, Ascending.HasAscendingKeys, hedges.keys_eq]
      exact (g.leadTo_successors state.items).hasAscendingKeys
    refine ⟨number, s, hnumber.trans_le (Nat.le_of_not_lt hknown), Nat.lt_succ_self number,
      ⟨_, hset, hsplit ▸ List.mem_append_right _ List.mem_cons_self⟩, ?_⟩
    intro u' state' s' v' _ hstate' hedge' hcase
    rcases hcase with hu' | ⟨rfl, hs'⟩
    · rw [hold u' hu'] at hstate'
      exact ((he u' hu' state' hstate').lt_length hedge').trans_le (Nat.le_of_not_lt hknown)
    · obtain rfl := Option.some.inj (hset.symm.trans hstate')
      exact hbefore _ (mem_of_key_lt hkeys (hsplit ▸ hedge') hs')

/-- **At the end each state but the first was added for an edge.** -/
theorem Explores.numbered (h : Explores g number states states') (hg : g.WellFormed)
    (hc : Collected g states) (he : Explored g number states) (hn : Numbered number states) :
    Numbered states'.length states' := by
  induction h with
  | @done number states hnone =>
    have hlength : states.length ≤ number := List.getElem?_eq_none_iff.mp hnone
    intro v hpos hv
    obtain ⟨u, s, hadded⟩ := hn v hpos hv
    exact ⟨u, s, hadded.lt, hadded.lt.trans hv, hadded.exists_edge,
      fun hu' => hadded.lt_of_before (hu'.trans_le hlength)⟩
  | step hstate _ ih =>
    obtain ⟨hc', he'⟩ := he.step hg hc hstate
    exact ih hc' he' (hn.step hg hc he hstate)

/-- **Edges to a state and to later ones do not come before the one it was added for.** -/
theorem AddedFor.le (h : AddedFor number states v u s) (hv : v ≤ v') (hu' : u' < number)
    (hstate : states[u']? = some state) (hedge : (s', v') ∈ state.edges) :
    u < u' ∨ u = u' ∧ s ≤ s' := by
  have hnot : ¬ (u' < u ∨ u' = u ∧ s' < s) := fun hbefore =>
    Nat.not_lt.mpr hv (h.lt_of_before hu' hstate hedge hbefore)
  simp only [not_or, not_and, Nat.not_lt] at hnot
  exact (Nat.lt_or_eq_of_le hnot.1).imp_right fun heq => ⟨heq, hnot.2 heq.symm⟩

/-- A state was added for one edge. -/
theorem AddedFor.eq (h : AddedFor number states v u s) (h' : AddedFor number states v u' s') :
    u = u' ∧ s = s' := by
  obtain ⟨_, hstate, hedge⟩ := h.exists_edge
  obtain ⟨_, hstate', hedge'⟩ := h'.exists_edge
  rcases h.le le_rfl h'.explored hstate' hedge' with hlt | ⟨rfl, hs⟩
  · rcases h'.le le_rfl h.explored hstate hedge with hlt' | ⟨rfl, -⟩
    · exact absurd hlt' (Nat.lt_asymm hlt)
    · exact absurd hlt (Nat.lt_irrefl _)
  · rcases h'.le le_rfl h.explored hstate hedge with hlt | ⟨-, hs'⟩
    · exact absurd hlt (Nat.lt_irrefl _)
    · exact ⟨rfl, Nat.le_antisymm hs hs'⟩

/-! ## Access words -/

namespace Automaton

/-- `w` is the least word that leads to state `u`. -/
structure IsAccess (automaton : Automaton) (w : List SymbolId) (u : Nat) : Prop where
  path : automaton.Path w u
  le : ∀ {w' : List SymbolId}, automaton.Path w' u → w = w' ∨ WordLt w w'

/-- The states are numbered in the order of their access words. -/
structure InOrder (automaton : Automaton) : Prop where
  start : automaton.IsAccess [] automaton.start
  exists_access : ∀ u < automaton.states.length, ∃ w, automaton.IsAccess w u
  wordLt : ∀ {u v : Nat} {w w' : List SymbolId}, automaton.IsAccess w u →
    automaton.IsAccess w' v → u < v → WordLt w w'

/-- `w` leads to state `u` along the edges that the states on the way were added for. -/
inductive Discovers (automaton : Automaton) : List SymbolId → Nat → Prop
  | start : Discovers automaton [] automaton.start
  | added {w : List SymbolId} {u v : Nat} {s : SymbolId} (h : Discovers automaton w u)
    (hadded : AddedFor automaton.states.length automaton.states v u s) :
    Discovers automaton (w ++ [s]) v

variable {automaton automaton' : Automaton}

theorem IsAccess.eq (h : automaton.IsAccess w u) (h' : automaton.IsAccess w' u) : w = w' := by
  rcases h.le h'.path with heq | hlt
  · exact heq
  · exact ((h'.le h.path).resolve_right hlt.asymm).symm

theorem Discovers.path (h : automaton.Discovers w u) : automaton.Path w u := by
  induction h with
  | start => exact .nil
  | added _ hadded ih =>
    obtain ⟨state, hstate, hedge⟩ := hadded.exists_edge
    exact .snoc ih hstate hedge

/-- A state has one discovery word. -/
theorem Discovers.eq (h : automaton.Discovers w u) (h' : automaton.Discovers w' u) : w = w' := by
  induction h generalizing w' with
  | start =>
    cases h' with
    | start => rfl
    | added _ hadded => exact absurd hadded.lt (Nat.not_lt_zero _)
  | added _ hadded ih =>
    cases h' with
    | start => exact absurd hadded.lt (Nat.not_lt_zero _)
    | added h' hadded' =>
      obtain ⟨rfl, rfl⟩ := hadded.eq hadded'
      rw [ih h']

/-- Every state has a discovery word. -/
theorem exists_discovers (hn : Numbered automaton.states.length automaton.states)
    (hu : u < automaton.states.length) : ∃ w, automaton.Discovers w u := by
  induction u using Nat.strong_induction_on with
  | _ u ih =>
    rcases Nat.eq_zero_or_pos u with rfl | hpos
    · exact ⟨[], .start⟩
    · obtain ⟨t, s, hadded⟩ := hn u hpos hu
      obtain ⟨w, hw⟩ := ih t hadded.lt (hadded.lt.trans hu)
      exact ⟨w ++ [s], .added hw hadded⟩

/-- **Discovery words are in the order of the numbers.** -/
theorem Complete.wordLt_of_discovers (ha : automaton.Complete g) (h : automaton.Discovers w u)
    (h' : automaton.Discovers w' v) (hlt : u < v) : WordLt w w' := by
  induction h' generalizing u w with
  | start => exact absurd hlt (Nat.not_lt_zero u)
  | @added w' u' v s' h' hadded' ih =>
    cases h with
    | start => exact .of_length_lt (by simp)
    | @added w u₀ _ s h hadded =>
      obtain ⟨state', hstate', hedge'⟩ := hadded'.exists_edge
      rcases hadded.le hlt.le hadded'.explored hstate' hedge' with hu | ⟨rfl, hs⟩
      · exact (ih h hu).snoc s s'
      · obtain rfl := h.eq h'
        refine .of_lt w (Nat.lt_of_le_of_ne hs ?_)
        rintro rfl
        obtain ⟨state, hstate, hedge⟩ := hadded.exists_edge
        obtain rfl := Option.some.inj (hstate.symm.trans hstate')
        have hkeys := ha.hasAscendingKeys (List.mem_of_getElem? hstate)
        have hget := (Ascending.mem_iff_get?_eq_some hkeys).mp hedge
        have hget' := (Ascending.mem_iff_get?_eq_some hkeys).mp hedge'
        exact Nat.ne_of_lt hlt (Option.some.inj (hget.symm.trans hget'))

/-- **No word that leads to a state is smaller than its discovery word.** -/
theorem Complete.le_of_path (ha : automaton.Complete g)
    (hn : Numbered automaton.states.length automaton.states) (h : automaton.Discovers w v)
    (hpath : automaton.Path w' v) : w = w' ∨ WordLt w w' := by
  induction hpath generalizing w with
  | nil => exact Or.inl (h.eq .start)
  | @snoc w' u v s' state hpath hstate hedge ih =>
    have hu : u < automaton.states.length := (List.getElem?_eq_some_iff.mp hstate).1
    obtain ⟨x, hx⟩ := exists_discovers hn hu
    have hle := ih hx
    cases h with
    | start => exact Or.inr (.of_length_lt (by simp))
    | @added w u₀ _ s h hadded =>
      rcases hadded.le le_rfl hu hstate hedge with hlt | ⟨rfl, hs⟩
      · have hsmaller := ha.wordLt_of_discovers h hx hlt
        refine Or.inr (.snoc ?_ s s')
        exact hle.elim (fun heq => heq ▸ hsmaller) hsmaller.trans
      · obtain rfl := h.eq hx
        rcases hle with rfl | hlt
        · rcases Nat.eq_or_lt_of_le hs with rfl | hs
          · exact Or.inl rfl
          · exact Or.inr (.of_lt w hs)
        · exact Or.inr (hlt.snoc s s')

/-- Discovery words are access words. -/
theorem Complete.isAccess (ha : automaton.Complete g)
    (hn : Numbered automaton.states.length automaton.states) (h : automaton.Discovers w u) :
    automaton.IsAccess w u :=
  ⟨h.path, ha.le_of_path hn h⟩

/-- **The states are numbered in the order of their access words.** -/
theorem Complete.inOrder (ha : automaton.Complete g)
    (hn : Numbered automaton.states.length automaton.states) (hg : g.WellFormed) :
    automaton.InOrder where
  start := ha.isAccess hn .start
  exists_access u hu := by
    obtain ⟨w, hw⟩ := exists_discovers hn hu
    exact ⟨w, ha.isAccess hn hw⟩
  wordLt {u v w w'} hu hv hlt := by
    obtain ⟨_, hstate, -⟩ := ha.exists_of_path hg hv.path
    have hv' : v < automaton.states.length := (List.getElem?_eq_some_iff.mp hstate).1
    obtain ⟨x, hx⟩ := exists_discovers hn (hlt.trans hv')
    obtain ⟨x', hx'⟩ := exists_discovers hn hv'
    rw [hu.eq (ha.isAccess hn hx), hv.eq (ha.isAccess hn hx')]
    exact ha.wordLt_of_discovers hx hx' hlt

/-! ## Numbers from paths -/

/-- In both automata the same words lead to one state. -/
def Alike (automaton automaton' : Automaton) : Prop :=
  ∀ w w', (∃ u, automaton.Path w u ∧ automaton.Path w' u) ↔
    ∃ u, automaton'.Path w u ∧ automaton'.Path w' u

theorem Alike.symm (h : automaton.Alike automaton') : automaton'.Alike automaton :=
  fun w w' => (h w w').symm

theorem Complete.lt_length (ha : automaton.Complete g) (hg : g.WellFormed)
    (h : automaton.Path w u) : u < automaton.states.length := by
  obtain ⟨_, hstate, -⟩ := ha.exists_of_path hg h
  exact (List.getElem?_eq_some_iff.mp hstate).1

/-- What leads to one state here leads to one state there. -/
theorem Alike.path (halike : automaton.Alike automaton') (ha' : automaton'.Complete g')
    (h : automaton.Path w u) (h' : automaton.Path w' u) (hv : automaton'.Path w v) :
    automaton'.Path w' v := by
  obtain ⟨x, hx, hx'⟩ := (halike w w').mp ⟨u, h, h'⟩
  exact ha'.eq_of_path hx hv ▸ hx'

/-- An access word is an access word there too. -/
theorem Alike.isAccess (halike : automaton.Alike automaton') (ha : automaton.Complete g)
    (h : automaton.IsAccess w u) (hv : automaton'.Path w v) : automaton'.IsAccess w v where
  path := hv
  le hw' := h.le (halike.symm.path ha hv hw' h.path)

section

variable (ha : automaton.Complete g) (ha' : automaton'.Complete g') (hg : g.WellFormed)
  (ho : automaton.InOrder) (ho' : automaton'.InOrder)

include ha ha' hg ho ho'

/-- **An access word leads to the same number there.**  By induction on the number: if it led to a
smaller one, so would the access word of that; if it led to a larger one, the access word of its
own number there would come from a smaller number here. -/
theorem Alike.path_of_isAccess (halike : automaton.Alike automaton') (hg' : g'.WellFormed)
    (h : automaton.IsAccess w u) : automaton'.Path w u := by
  induction u using Nat.strong_induction_on generalizing w with
  | _ u ih =>
    obtain ⟨v, hv, -⟩ := (halike w w).mp ⟨u, h.path, h.path⟩
    rcases Nat.lt_trichotomy v u with hlt | rfl | hlt
    · obtain ⟨x, hx⟩ := ho.exists_access v (hlt.trans (ha.lt_length hg h.path))
      have hw := halike.symm.path ha (ih v hlt hx) hv hx.path
      exact absurd (ha.eq_of_path hw h.path) (Nat.ne_of_lt hlt)
    · exact hv
    · obtain ⟨x, hx⟩ := ho'.exists_access u (hlt.trans (ha'.lt_length hg' hv))
      have hxw : WordLt x w := ho'.wordLt hx (halike.isAccess ha h hv) hlt
      obtain ⟨y, hy, -⟩ := (halike x x).mpr ⟨u, hx.path, hx.path⟩
      have hz := halike.symm.isAccess ha' hx hy
      rcases Nat.lt_trichotomy y u with hyu | rfl | hyu
      · exact absurd (ha'.eq_of_path (ih y hyu hz) hx.path) (Nat.ne_of_lt hyu)
      · exact hz.eq h ▸ hx.path
      · exact absurd hxw (ho.wordLt h hz hyu).asymm

/-- **Every word leads to the same number there.** -/
theorem Alike.path_imp (halike : automaton.Alike automaton') (hg' : g'.WellFormed)
    (h : automaton.Path w u) : automaton'.Path w u := by
  obtain ⟨x, hx⟩ := ho.exists_access u (ha.lt_length hg h)
  exact halike.path ha' hx.path h (halike.path_of_isAccess ha ha' hg ho ho' hg' hx)

end

end Automaton

/-- The states that the exploration finds are numbered in the order of their access words. -/
theorem Grammar.WellFormed.automaton_inOrder (hg : g.WellFormed) : g.automaton.InOrder := by
  have hn := hg.explores.numbered hg hg.collected_start
    (fun u hu => absurd hu (Nat.not_lt_zero u)) fun v hpos hv => absurd hv (Nat.not_lt.mpr hpos)
  exact hg.automaton_complete.inOrder hn hg

/-- **States are numbered breadth first, and canonically.**  The start state has the empty access
word, every state has one, and the numbers follow their order; so two automata in which the same
words lead to one state have the same numbers. -/
theorem Grammar.Built.numbering_canonical (hg : g.Built) :
    g.automaton.IsAccess [] 0 ∧
    (∀ u < g.automaton.states.length, ∃ w, g.automaton.IsAccess w u) ∧
    (∀ u v w w', g.automaton.IsAccess w u → g.automaton.IsAccess w' v →
      (u < v ↔ WordLt w w')) ∧
    ∀ g' : Grammar, g'.Built → g.automaton.Alike g'.automaton →
      ∀ w u, g.automaton.Path w u ↔ g'.automaton.Path w u := by
  have hwell := hg.wellFormed
  have ha := hwell.automaton_complete
  have ho := hwell.automaton_inOrder
  refine ⟨ho.start, ho.exists_access, fun u v w w' hu hv => ⟨ho.wordLt hu hv, fun hlt => ?_⟩, ?_⟩
  · rcases Nat.lt_trichotomy u v with h | rfl | h
    · exact h
    · obtain rfl := hu.eq hv
      exact absurd hlt (WordLt.asymm hlt)
    · exact absurd (ho.wordLt hv hu h) (WordLt.asymm hlt)
  · intro g' hg' halike w u
    have hwell' := hg'.wellFormed
    have ha' := hwell'.automaton_complete
    have ho' := hwell'.automaton_inOrder
    exact ⟨halike.path_imp ha ha' hwell ho ho' hwell',
      halike.symm.path_imp ha' ha hwell' ho' ho hwell⟩

theorem Grammar.numbering_canonical_tangled : ∃ w w', tangled.automaton.IsAccess w 3 ∧
    tangled.automaton.IsAccess w' 6 ∧ WordLt w w' := by
  have hlength : tangled.automaton.states.length = 8 := rfl
  obtain ⟨-, hexists, hiff, -⟩ := tangled_built.numbering_canonical
  obtain ⟨w, hw⟩ := hexists 3 (by omega)
  obtain ⟨w', hw'⟩ := hexists 6 (by omega)
  exact ⟨w, w', hw, hw', (hiff 3 6 w w' hw hw').mp (by decide)⟩

end GrammarTables
