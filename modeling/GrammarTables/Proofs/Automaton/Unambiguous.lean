import GrammarTables.Proofs.Analysis.Follow
import GrammarTables.Proofs.Automaton.ActionTable

/-!
# Proofs/Automaton/Unambiguous — a table without conflicts parses each word in one way

A shift-reduce parser that follows the table keeps the trees it has built beside the states of its
stack (`Moves`).  It builds every derivation tree of a word (`Drives.tree_moves`): the items of the
states on the stack follow the right sides that are under way, and what comes after a right side is
in FOLLOW, so the table has the reduction.  Without conflicts the parser has no choice
(`moves_rightUnique`), so a word cannot have two trees.
-/

namespace GrammarTables

open GrammarTables.Derivation Relation

/-! ## The trees of a right side -/

/-- The trees of a right side, when those of its visible symbols are given. -/
def dress : List SymbolId → List Derivation → List Derivation
  | [], _ => []
  | s :: right, ds =>
    if s = epsilonId then .leaf epsilonId :: dress right ds
    else
      match ds with
      | [] => []
      | d :: ds => d :: dress right ds

/-- The trees of visible symbols. -/
def undressed (ds : List Derivation) : List Derivation :=
  ds.filter fun d => d.root ≠ epsilonId

section Dress

variable {g : Grammar} {d : Derivation} {ds : List Derivation} {s : SymbolId}
  {right : List SymbolId}

theorem dress_epsilon_cons :
    dress (epsilonId :: right) ds = .leaf epsilonId :: dress right ds :=
  rfl

theorem dress_cons_of_ne (hs : s ≠ epsilonId) :
    dress (s :: right) (d :: ds) = d :: dress right ds :=
  if_neg hs

theorem undressed_cons_of_eq (hd : d.root = epsilonId) : undressed (d :: ds) = undressed ds :=
  List.filter_cons_of_neg (by simpa using hd)

theorem undressed_cons_of_ne (hd : d.root ≠ epsilonId) :
    undressed (d :: ds) = d :: undressed ds :=
  List.filter_cons_of_pos (decide_eq_true hd)

/-- A valid tree below the empty string is its leaf. -/
theorem eq_leaf_epsilon (hg : g.WellFormed) (hvalid : d.Valid g) (hd : d.root = epsilonId) :
    d = leaf epsilonId := by
  rw [hvalid.eq_leaf hg fun h => hg.ne_epsilon_of_isNonTerminal h hd, hd]

theorem dress_undressed (hg : g.WellFormed) (hds : ForestValid g ds) :
    dress (ds.map root) (undressed ds) = ds := by
  induction ds with
  | nil => rfl
  | cons d ds ih =>
    rw [List.map_cons]
    by_cases hroot : d.root = epsilonId
    · rw [undressed_cons_of_eq hroot, hroot, dress_epsilon_cons, ih hds.2,
        eq_leaf_epsilon hg hds.1 hroot]
    · rw [undressed_cons_of_ne hroot, dress_cons_of_ne hroot, ih hds.2]

theorem length_undressed : (undressed ds).length = (visible (ds.map root)).length := by
  rw [visible, List.filter_map, List.length_map, undressed]
  rfl

end Dress

/-! ## A shift-reduce parser -/

/-- A state on the stack of the parser, and the tree of the symbol that led to it. -/
structure Frame where
  state : Nat
  tree : Derivation

/-- The state on the top of the stack. -/
def topState (automaton : Automaton) : List Frame → Nat
  | [] => automaton.start
  | frame :: _ => frame.state

/-- One move of the parser that follows a table. -/
inductive Moves (g : Grammar) (automaton : Automaton) (table : ActionTable) :
    List Frame × List SymbolId → List Frame × List SymbolId → Prop
  /-- The literal becomes a tree. -/
  | shift {frames : List Frame} {t : SymbolId} {rest : List SymbolId} {row : ActionRow} {v : Nat}
    (hrow : table.actions[topState automaton frames]? = some row)
    (haction : .shift v ∈ row.cell t) :
    Moves g automaton table (frames, t :: rest) (⟨v, .leaf t⟩ :: frames, rest)
  /-- The trees of a right side become one tree. -/
  | reduce {all pushed frames : List Frame} {t : SymbolId} {rest : List SymbolId}
    {row : ActionRow} {gotos : GotoRow} {p : Production} {v : Nat} (hp : p ∈ g.productions)
    (hrow : table.actions[topState automaton all]? = some row)
    (haction : .reduce p.ordinal ∈ row.cell t) (hall : all = pushed ++ frames)
    (hlength : pushed.length = (visible p.right).length)
    (hgotos : table.gotos[topState automaton frames]? = some gotos)
    (hgoto : Ascending.get? p.left gotos = some v) :
    Moves g automaton table (all, t :: rest)
      (⟨v, .node p (dress p.right (pushed.reverse.map Frame.tree))⟩ :: frames, t :: rest)

variable {g : Grammar} {automaton : Automaton} {table : ActionTable} {sets : Sets}

/-- Two actions in the cells of one state and one literal are one action. -/
theorem eq_of_actions (hslr : table.isSLR1) {u : Nat} {t : SymbolId} {row row' : ActionRow}
    {a b : Action} (hrow : table.actions[u]? = some row) (ha : a ∈ row.cell t)
    (hrow' : table.actions[u]? = some row') (hb : b ∈ row'.cell t) : a = b := by
  obtain rfl := Option.some.inj (hrow.symm.trans hrow')
  exact table.eq_of_mem_cell hslr (List.mem_of_getElem? hrow) ha hb

/-- **The parser has at most one move** where no cell has two actions. -/
theorem moves_rightUnique (hg : g.WellFormed) (hslr : table.isSLR1) :
    Relator.RightUnique (Moves g automaton table) := by
  intro c c' c'' h h'
  cases h with
  | shift hrow haction =>
    cases h' with
    | shift hrow' haction' =>
      obtain rfl := Action.shift.inj (eq_of_actions hslr hrow haction hrow' haction')
      rfl
    | reduce hp' hrow' haction' => exact nomatch eq_of_actions hslr hrow haction hrow' haction'
  | reduce hp hrow haction hall hlength hgotos hgoto =>
    cases h' with
    | shift hrow' haction' => exact nomatch eq_of_actions hslr hrow haction hrow' haction'
    | reduce hp' hrow' haction' hall' hlength' hgotos' hgoto' =>
      obtain rfl := hg.eq_of_ordinal_eq hp hp'
        (Action.reduce.inj (eq_of_actions hslr hrow haction hrow' haction'))
      obtain ⟨rfl, rfl⟩ := List.append_inj (hall.symm.trans hall') (hlength.trans hlength'.symm)
      obtain rfl := Option.some.inj (hgotos.symm.trans hgotos')
      obtain rfl := Option.some.inj (hgoto.symm.trans hgoto')
      rfl

/-- A parser that can accept has no move where no cell has two actions. -/
theorem not_moves_of_accept (hslr : table.isSLR1) {frames : List Frame} {t : SymbolId}
    {rest : List SymbolId} {row : ActionRow}
    (hrow : table.actions[topState automaton frames]? = some row) (haccept : .accept ∈ row.cell t)
    (c : List Frame × List SymbolId) : ¬ Moves g automaton table (frames, t :: rest) c := by
  intro h
  cases h with
  | shift hrow' haction => exact nomatch eq_of_actions hslr hrow haccept hrow' haction
  | reduce hp hrow' haction => exact nomatch eq_of_actions hslr hrow haccept hrow' haction

/-- The table is that of the complete automaton and the sets of the grammar. -/
structure Drives (g : Grammar) (automaton : Automaton) (sets : Sets) (table : ActionTable) :
    Prop where
  wellFormed : g.WellFormed
  settled : sets.Settled g
  complete : automaton.Complete g
  actions_eq : table.actions = automaton.states.map (actionRow g sets)
  gotos_eq : table.gotos = automaton.states.map (gotoRow g)

namespace Drives

variable (hd : Drives g automaton sets table) {state : State} {p : Production} {u v : Nat}
  {s t : SymbolId}

include hd

theorem row_eq (hstate : automaton.states[u]? = some state) :
    table.actions[u]? = some (actionRow g sets state) := by
  rw [hd.actions_eq, List.getElem?_map, hstate]
  rfl

/-- Along an edge for a literal the parser can shift. -/
theorem exists_shift (hstate : automaton.states[u]? = some state) (hs : g.isLiteral s)
    (hedge : (s, v) ∈ state.edges) :
    ∃ row, table.actions[u]? = some row ∧ .shift v ∈ row.cell s := by
  exact ⟨_, hd.row_eq hstate, mem_cell_actionRow.mpr
    (Or.inl ⟨Grammar.isNonTerminal_eq_false_of_isLiteral hs, v, hedge, rfl⟩)⟩

/-- With a complete item the parser can reduce on FOLLOW. -/
theorem exists_reduce (hstate : automaton.states[u]? = some state) (hp : p ∈ g.productions)
    (hitem : ⟨p.ordinal, p.right.length⟩ ∈ state.items) (ht : t ∈ sets.followOf p.left) :
    ∃ row, table.actions[u]? = some row ∧ .reduce p.ordinal ∈ row.cell t := by
  refine ⟨_, hd.row_eq hstate, mem_cell_actionRow.mpr (Or.inr ⟨_, hitem, ?_, ?_⟩)⟩
  · rw [Item.next?, hd.wellFormed.itemRight_ordinal hp]
    exact List.getElem?_eq_none (Nat.le_refl _)
  · rw [hd.wellFormed.itemLeft?_ordinal hp]
    exact ⟨ht, rfl⟩

/-- With the item behind the start symbol the parser can accept. -/
theorem exists_accept (hstate : automaton.states[u]? = some state)
    (hitem : ⟨augmentedOrdinal, 1⟩ ∈ state.items) :
    ∃ row, table.actions[u]? = some row ∧ .accept ∈ row.cell endMarkId := by
  refine ⟨_, hd.row_eq hstate, mem_cell_actionRow.mpr (Or.inr ⟨_, hitem, rfl, ?_⟩)⟩
  rw [hd.wellFormed.itemLeft?_augmented]
  exact ⟨rfl, rfl⟩

/-- Along an edge for a non-terminal the parser goes on after a reduction. -/
theorem exists_goto (hstate : automaton.states[u]? = some state) (hs : g.isNonTerminal s)
    (hedge : (s, v) ∈ state.edges) :
    ∃ gotos, table.gotos[u]? = some gotos ∧ Ascending.get? s gotos = some v := by
  refine ⟨gotoRow g state, by rw [hd.gotos_eq, List.getElem?_map, hstate]; rfl, ?_⟩
  have hkeys : Ascending.HasAscendingKeys (gotoRow g state) :=
    List.Pairwise.sublist (List.filter_sublist.map _)
      (hd.complete.hasAscendingKeys (List.mem_of_getElem? hstate))
  exact (Ascending.mem_iff_get?_eq_some hkeys).mp (List.mem_filter.mpr ⟨hedge, hs⟩)

/-! ## The parser along a tree -/

mutual

/-- **The parser builds every tree** below the symbol after a dot, and the dot moves on. -/
theorem tree_moves : ∀ d : Derivation, d.Valid g → d.root ≠ epsilonId → ∀ frames state i t tail,
    automaton.states[topState automaton frames]? = some state → i ∈ state.items →
    i.next? g = some d.root → (g.isNonTerminal d.root → t ∈ sets.followOf d.root) →
    ∃ v state', automaton.states[v]? = some state' ∧ i.advance g ∈ state'.items ∧
      ReflTransGen (Moves g automaton table) (frames, d.frontier ++ t :: tail)
        (⟨v, d⟩ :: frames, t :: tail)
  | leaf s, hvalid, hne, frames, state, i, t, tail, hstate, hi, hnext, _ => by
    obtain ⟨v, state', hedge, hstate', hadvance⟩ :=
      hd.complete.exists_edge (List.mem_of_getElem? hstate) hi hnext
    obtain ⟨row, hrow, haction⟩ := hd.exists_shift hstate (hvalid.resolve_left hne) hedge
    refine ⟨v, state', hstate', hadvance, .single ?_⟩
    have hfrontier : (leaf s).frontier = [s] := visible_cons_of_ne hne
    rw [hfrontier]
    exact .shift hrow haction
  | node p ds, hvalid, hne, frames, state, i, t, tail, hstate, hi, hnext, ht => by
    obtain ⟨hp, hroots, hds⟩ := hvalid
    have hnonTerminal := hd.wellFormed.isNonTerminal_left hp
    replace ht : t ∈ sets.followOf p.left := ht hnonTerminal
    have hfirst :=
      hd.complete.first_mem_items hd.wellFormed hp (List.mem_of_getElem? hstate) hi hnext
    rw [hd.wellFormed.first_ordinal hp] at hfirst
    obtain ⟨pushed, reached, hreached, hitem, htrees, hmoves⟩ :=
      forest_moves ds hds p [] frames state t tail hp hroots.symm hstate hfirst ht
    obtain ⟨row, hrow, haction⟩ := hd.exists_reduce hreached hp hitem ht
    obtain ⟨v, state', hedge, hstate', hadvance⟩ :=
      hd.complete.exists_edge (List.mem_of_getElem? hstate) hi hnext
    obtain ⟨gotos, hgotos, hgoto⟩ := hd.exists_goto hstate hnonTerminal hedge
    have hlength : pushed.length = (visible p.right).length := by
      rw [← hroots, ← length_undressed, ← htrees, List.length_map, List.length_reverse]
    refine ⟨v, state', hstate', hadvance, hmoves.tail ?_⟩
    have hmove : Moves g automaton table (pushed ++ frames, t :: tail) (_, t :: tail) :=
      .reduce hp hrow haction rfl hlength hgotos hgoto
    rwa [htrees, ← hroots, dress_undressed hd.wellFormed hds] at hmove

theorem forest_moves : ∀ ds : List Derivation, ForestValid g ds → ∀ p before frames state t tail,
    p ∈ g.productions → p.right = before ++ ds.map root →
    automaton.states[topState automaton frames]? = some state →
    ⟨p.ordinal, skipEpsilon p.right before.length⟩ ∈ state.items → t ∈ sets.followOf p.left →
    ∃ pushed state', automaton.states[topState automaton (pushed ++ frames)]? = some state' ∧
      ⟨p.ordinal, p.right.length⟩ ∈ state'.items ∧
      pushed.reverse.map Frame.tree = undressed ds ∧
      ReflTransGen (Moves g automaton table) (frames, forestFrontier ds ++ t :: tail)
        (pushed ++ frames, t :: tail)
  | [], _, p, before, frames, state, t, tail, hp, hright, hstate, hitem, ht => by
    rw [List.map_nil, List.append_nil] at hright
    rw [← hright, skipEpsilon_length] at hitem
    exact ⟨[], state, hstate, hitem, rfl, .refl⟩
  | d :: ds, hvalid, p, before, frames, state, t, tail, hp, hright, hstate, hitem, ht => by
    have hright' : p.right = (before ++ [d.root]) ++ ds.map root := by rw [hright]; simp
    by_cases hroot : d.root = epsilonId
    · have hleaf := eq_leaf_epsilon hd.wellFormed hvalid.1 hroot
      rw [undressed_cons_of_eq hroot, hleaf]
      refine forest_moves ds hvalid.2 p (before ++ [d.root]) frames state t tail hp hright' hstate
        ?_ ht
      rw [List.map_cons, hroot] at hright
      rw [hright, skipEpsilon_of_epsilon, ← hright] at hitem
      rwa [List.length_append, List.length_singleton]
    · obtain ⟨r, rest, hcons, hr⟩ :=
        hd.settled.exists_mem_followOf_child hd.wellFormed hp hright hvalid.2 ht tail
      rw [List.map_cons] at hright
      rw [hright, skipEpsilon_of_ne hroot] at hitem
      have hnext : Item.next? g ⟨p.ordinal, before.length⟩ = some d.root := by
        rw [Item.next?, hd.wellFormed.itemRight_ordinal hp, hright]
        simp
      obtain ⟨v, state₁, hstate₁, hadvance, hmoves₁⟩ :=
        tree_moves d hvalid.1 hroot frames state _ r rest hstate hitem hnext hr
      rw [Item.advance, hd.wellFormed.itemRight_ordinal hp] at hadvance
      obtain ⟨pushed, state₂, hstate₂, hcomplete, htrees, hmoves₂⟩ := forest_moves ds hvalid.2 p
        (before ++ [d.root]) (⟨v, d⟩ :: frames) state₁ t tail hp hright' hstate₁
        (by rwa [List.length_append, List.length_singleton]) ht
      have happend : pushed ++ ⟨v, d⟩ :: frames = (pushed ++ [⟨v, d⟩]) ++ frames := by simp
      rw [happend] at hstate₂ hmoves₂
      refine ⟨pushed ++ [⟨v, d⟩], state₂, hstate₂, hcomplete, ?_, ?_⟩
      · rw [undressed_cons_of_ne hroot, ← htrees]
        simp
      · rw [forestFrontier, List.append_assoc, hcons]
        exact hmoves₁.trans (hcons ▸ hmoves₂)

end

/-- A tree of the start symbol leads to a stack with it alone, from where there is no move. -/
theorem exists_moves_of_start (hslr : table.isSLR1) {d : Derivation} (hvalid : d.Valid g)
    (hroot : d.root = g.start) : ∃ v, ReflTransGen (Moves g automaton table)
      ([], d.frontier ++ [endMarkId]) ([⟨v, d⟩], [endMarkId]) ∧
        ∀ c, ¬ Moves g automaton table ([⟨v, d⟩], [endMarkId]) c := by
  have hne := hd.wellFormed.ne_epsilon_of_isNonTerminal hd.wellFormed.start_nonTerminal
  obtain ⟨state, hstate, hitem⟩ := hd.complete.exists_start
  rw [hd.wellFormed.first_augmented] at hitem
  have hnext : Item.next? g ⟨augmentedOrdinal, 0⟩ = some d.root := congrArg some hroot.symm
  obtain ⟨v, state', hstate', hadvance, hmoves⟩ := hd.tree_moves d hvalid (hroot ▸ hne) [] state _
    endMarkId [] hstate hitem hnext
    (fun _ => hroot ▸ hd.settled.endMark_mem_followOf_start hd.wellFormed)
  have hdone : Item.advance g ⟨augmentedOrdinal, 0⟩ = ⟨augmentedOrdinal, 1⟩ :=
    congrArg (Item.mk augmentedOrdinal) skipEpsilon_length
  rw [hdone] at hadvance
  obtain ⟨row, hrow, haccept⟩ := hd.exists_accept hstate' hadvance
  exact ⟨v, hmoves, not_moves_of_accept hslr hrow haccept⟩

/-- **Two trees of the start symbol over one word are equal** where no cell has two actions. -/
theorem eq_of_frontier (hslr : table.isSLR1) {d d' : Derivation} (hvalid : d.Valid g)
    (hvalid' : d'.Valid g) (hroot : d.root = g.start) (hroot' : d'.root = g.start)
    (h : d.frontier = d'.frontier) : d = d' := by
  obtain ⟨v, hmoves, hlast⟩ := hd.exists_moves_of_start hslr hvalid hroot
  obtain ⟨v', hmoves', hlast'⟩ := hd.exists_moves_of_start hslr hvalid' hroot'
  rw [← h] at hmoves'
  have hunique : Relator.RightUnique (Moves g automaton table) :=
    moves_rightUnique hd.wellFormed hslr
  have hsame : (([⟨v, d⟩], [endMarkId]) : List Frame × List SymbolId) =
      ([⟨v', d'⟩], [endMarkId]) := by
    rcases ReflTransGen.total_of_right_unique hunique hmoves hmoves' with hmore | hmore
    · exact (ReflTransGen.cases_head hmore).resolve_right fun ⟨c, hc, _⟩ => hlast c hc
    · exact ((ReflTransGen.cases_head hmore).resolve_right fun ⟨c, hc, _⟩ => hlast' c hc).symm
  exact congrArg Frame.tree (List.head_eq_of_cons_eq (Prod.mk.inj hsame).1)

end Drives

/-- **A grammar whose SLR(1) table has no conflict is unambiguous**: no word has two derivation
trees from the start symbol. -/
theorem Grammar.Built.unambiguous_of_isSLR1 (hg : g.Built) :
    ∃ table, g.automaton.actionTable g = .ok table ∧ (table.isSLR1 → ∀ d d' : Derivation,
      d.Valid g → d'.Valid g → d.root = g.start → d'.root = g.start → d.frontier = d'.frontier →
        d = d') := by
  have hwell := hg.wellFormed
  obtain ⟨sets, hsets, hs⟩ := hwell.exists_sets
  refine ⟨⟨g.automaton.states.map (actionRow g sets), g.automaton.states.map (gotoRow g)⟩, ?_, ?_⟩
  · rw [Automaton.actionTable, hsets]
    rfl
  · intro hslr d d' hvalid hvalid' hroot hroot' h
    have hd : Drives g g.automaton sets
        ⟨g.automaton.states.map (actionRow g sets), g.automaton.states.map (gotoRow g)⟩ :=
      ⟨hwell, hs, hwell.automaton_complete, rfl, rfl⟩
    exact hd.eq_of_frontier hslr hvalid hvalid' hroot hroot' h

theorem Grammar.unambiguous_of_isSLR1_nested :
    ∃ table, nested.automaton.actionTable nested = .ok table ∧ table.isSLR1 ∧
      ∀ d : Derivation, d.Valid nested → d.root = 2 → d.frontier = [3, 4] →
        d = .node ⟨1, 2, 0, [3, 2, 4]⟩
          [.leaf 3, .node ⟨2, 2, 1, [epsilonId]⟩ [.leaf epsilonId], .leaf 4] := by
  obtain ⟨table, htable, hunique⟩ := nested_built.unambiguous_of_isSLR1
  have hslr : table.isSLR1 := by
    have hmap : (nested.automaton.actionTable nested).map ActionTable.isSLR1 = .ok true := rfl
    rw [htable] at hmap
    exact Except.ok.inj hmap
  refine ⟨table, htable, hslr, fun d hvalid hroot h => hunique hslr d _ hvalid ?_ hroot rfl h⟩
  have hopen : (⟨1, 2, 0, [3, 2, 4]⟩ : Production) ∈ nested.productions := by decide
  have hclose : (⟨2, 2, 1, [epsilonId]⟩ : Production) ∈ nested.productions := by decide
  exact ⟨hopen, rfl, Or.inr rfl, ⟨hclose, rfl, Or.inl rfl, trivial⟩, Or.inr rfl, trivial⟩

end GrammarTables
