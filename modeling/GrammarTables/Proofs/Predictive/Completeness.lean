import GrammarTables.Proofs.Analysis.Follow
import GrammarTables.Proofs.Predictive.Bound
import GrammarTables.Proofs.Predictive.Table
import GrammarTables.Proofs.Predictive.Tree

/-!
# Proofs/Predictive/Completeness — the table of a grammar finds every derivation

A table without conflicts has one production for a non-terminal and a lookahead, and it is the
production of every derivation tree that begins with this lookahead (`Sets.Decides`).  So two trees
of one symbol over one word are equal (`Decides.eq_of_frontier_eq`), and the parser builds the tree
(`Decides.tree_run`).  Both are inductions on the derivation tree, with a part for the forest below
a production; what comes after a tree stays in FOLLOW of its root all the way down.
-/

namespace GrammarTables

/-! ## Streams that spell a word -/

namespace TokenStream

variable {g : Grammar} {tokens : TokenStream} {s : SymbolId} {w : List SymbolId}

/-- The kinds of the tokens, and of as many end marks after them as it takes, are the word. -/
def Spells (g : Grammar) (tokens : TokenStream) (w : List SymbolId) : Prop :=
  ∃ j, tokens.rest.map Token.kind ++ List.replicate j Symbol.endMarkName = g.spell w

/-- **The first literal of the word is the lookahead**, and the other tokens spell the rest. -/
theorem Spells.cons (hg : g.WellFormed) (h : tokens.Spells g (s :: w)) (hs : g.isLiteral s) :
    tokens.lookahead? g = some s ∧ tokens.peek.kind = g.nameOf s ∧ tokens.pop.Spells g w := by
  obtain ⟨j, h⟩ := h
  have hkind : tokens.peek.kind = g.nameOf s ∧ tokens.pop.Spells g w := by
    obtain ⟨position, rest⟩ := tokens
    cases rest with
    | nil =>
      cases j with
      | zero => exact nomatch h
      | succ j =>
        obtain ⟨hname, hrest⟩ := List.cons.inj h
        exact ⟨hname, j, hrest⟩
    | cons token rest =>
      obtain ⟨hname, hrest⟩ := List.cons.inj h
      exact ⟨hname, j, hrest⟩
  refine ⟨?_, hkind⟩
  rw [lookahead?, hkind.1, hg.index?_nameOf (Grammar.lt_length_of_isLiteral hs), Option.filter_some,
    if_pos hs]

/-- No token is left where nothing is spelt. -/
theorem Spells.rest_eq_nil (h : tokens.Spells g []) : tokens.rest = [] := by
  obtain ⟨j, h⟩ := h
  exact List.map_eq_nil_iff.mp (List.append_eq_nil_iff.mp h).1

end TokenStream

/-! ## A table that decides -/

/-- The table has every prediction of the sets of the grammar. -/
structure Sets.Decides (g : Grammar) (table : PredictiveTable) (sets : Sets) : Prop where
  wellFormed : g.WellFormed
  settled : sets.Settled g
  get?_eq : ∀ {p : Production} {t : SymbolId}, p ∈ g.productions →
    t ∈ sets.predict g p.left p.right → table.get? p.left t = some p.ordinal

namespace Sets.Decides

open GrammarTables.Derivation

variable {g : Grammar} {table : PredictiveTable} {sets : Sets} (hd : sets.Decides g table)
  {p : Production} {t t' : SymbolId} {tail tail' : List SymbolId}

include hd

/-- Two productions of one left side predict nothing in common. -/
theorem eq_of_mem_predict {q : Production} (hp : p ∈ g.productions) (hq : q ∈ g.productions)
    (hleft : p.left = q.left) (ht : t ∈ sets.predict g p.left p.right)
    (ht' : t ∈ sets.predict g q.left q.right) : p = q := by
  have hcell := hd.get?_eq hp ht
  rw [hleft, hd.get?_eq hq ht'] at hcell
  exact hd.wellFormed.eq_of_ordinal_eq hp hq (Option.some.inj hcell).symm

/-! ## One tree for a word -/

mutual

/-- **Two trees of one symbol that begin one word are equal**, if what comes after each of them is
in FOLLOW of the symbol. -/
theorem eq_of_frontier_eq : ∀ d d' : Derivation, d.Valid g → d'.Valid g → d.root = d'.root →
    ∀ t tail t' tail', (g.isNonTerminal d.root → t ∈ sets.followOf d.root) →
      (g.isNonTerminal d.root → t' ∈ sets.followOf d.root) →
      d.frontier ++ t :: tail = d'.frontier ++ t' :: tail' → d = d' ∧ t :: tail = t' :: tail'
  | leaf s, d', hvalid, hvalid', hroot, _, _, _, _, _, _, h => by
    have hleaf := hvalid.not_isNonTerminal_leaf hd.wellFormed
    obtain rfl : d' = leaf s := by
      rw [hvalid'.eq_leaf hd.wellFormed (hroot ▸ hleaf), ← hroot]
      rfl
    exact ⟨rfl, List.append_cancel_left h⟩
  | node p ds, d', hvalid, hvalid', hroot, t, tail, t', tail', ht, ht', h => by
    have hnonTerminal := hd.wellFormed.isNonTerminal_left hvalid.1
    replace ht := ht hnonTerminal
    replace ht' : t' ∈ sets.followOf p.left := ht' hnonTerminal
    obtain ⟨q, es, rfl⟩ := hvalid'.exists_node hd.wellFormed (hroot ▸ hnonTerminal)
    replace hroot : p.left = q.left := hroot
    replace h : forestFrontier ds ++ t :: tail = forestFrontier es ++ t' :: tail' := h
    obtain ⟨r, rest, hcons, -, hr⟩ := hd.settled.exists_mem_predict hd.wellFormed hvalid ht tail
    obtain ⟨r', rest', hcons', -, hr'⟩ :=
      hd.settled.exists_mem_predict hd.wellFormed hvalid' (hroot ▸ ht') tail'
    obtain ⟨rfl, -⟩ := List.cons.inj (hcons.symm.trans (h.trans hcons'))
    obtain rfl := hd.eq_of_mem_predict hvalid.1 hvalid'.1 hroot hr hr'
    obtain ⟨hp, hroots, hds⟩ := hvalid
    obtain ⟨-, hroots', hes⟩ := hvalid'
    obtain ⟨rfl, htail⟩ := eq_of_forestFrontier_eq ds es hds hes (hroots.trans hroots'.symm) p [] hp
      hroots.symm t tail t' tail' ht ht' h
    exact ⟨rfl, htail⟩

theorem eq_of_forestFrontier_eq : ∀ ds es : List Derivation, ForestValid g ds →
    ForestValid g es → ds.map root = es.map root → ∀ p before, p ∈ g.productions →
      p.right = before ++ ds.map root → ∀ t tail t' tail', t ∈ sets.followOf p.left →
      t' ∈ sets.followOf p.left →
      forestFrontier ds ++ t :: tail = forestFrontier es ++ t' :: tail' →
      ds = es ∧ t :: tail = t' :: tail'
  | [], es, _, _, hroots, _, _, _, _, _, _, _, _, _, _, h => by
    obtain rfl : es = [] := List.map_eq_nil_iff.mp hroots.symm
    exact ⟨rfl, h⟩
  | d :: ds, es, hvalid, hvalid', hroots, p, before, hp, hright, t, tail, t', tail', ht, ht',
    h => by
    obtain ⟨e, es, rfl, hroot, hes⟩ := List.map_eq_cons_iff.mp hroots.symm
    rw [forestFrontier, forestFrontier, List.append_assoc, List.append_assoc] at h
    obtain ⟨r, rest, hcons, hr⟩ :=
      hd.settled.exists_mem_followOf_child hd.wellFormed hp hright hvalid.2 ht tail
    have hright' : p.right = before ++ d.root :: es.map root := by rw [hright, hes]; rfl
    obtain ⟨r', rest', hcons', hr'⟩ :=
      hd.settled.exists_mem_followOf_child hd.wellFormed hp hright' hvalid'.2 ht' tail'
    rw [hcons, hcons'] at h
    obtain ⟨rfl, hrest⟩ :=
      eq_of_frontier_eq d e hvalid.1 hvalid'.1 hroot.symm r rest r' rest' hr hr' h
    rw [← hcons, ← hcons'] at hrest
    obtain ⟨rfl, htail⟩ := eq_of_forestFrontier_eq ds es hvalid.2 hvalid'.2 hes.symm p
      (before ++ [d.root]) hp (by rw [hright]; simp) t tail t' tail' ht ht' hrest
    exact ⟨rfl, htail⟩

end

/-! ## The run along a tree -/

mutual

/-- **The parser builds the tree of a derivation** whose word the stream spells: it stops as it does
when the tree is finished. -/
theorem tree_run : ∀ d : Derivation, d.Valid g → ∀ stack path trees accepted tokens t tail,
    (path ≠ [] ∨ g.isNonTerminal d.root) → (g.isNonTerminal d.root → t ∈ sets.followOf d.root) →
    tokens.Spells g (d.frontier ++ t :: tail) →
    ∃ tree tokens', tree.Shows g d ∧ tokens'.Spells g (t :: tail) ∧
      ∀ o, Stops g table (Config.attach ⟨stack, path, trees, accepted, tokens'⟩ tree) o →
        Stops g table ⟨.ofSymbol d.root :: stack, path, trees, accepted, tokens⟩ o
  | leaf s, hvalid, stack, path, trees, accepted, tokens, t, tail, hpath, _, hspells => by
    have hleaf := hvalid.not_isNonTerminal_leaf hd.wellFormed
    rcases hvalid with rfl | hs
    · exact ⟨.epsilon, tokens, .epsilon, hspells,
        fun o => Stops.of_next Config.step_ofSymbol_epsilon⟩
    · have hne := hd.wellFormed.ne_epsilon_of_isLiteral hs
      rw [Derivation.frontier, visible_cons_of_ne hne] at hspells
      obtain ⟨hlookahead, hkind, hrest⟩ := hspells.cons hd.wellFormed hs
      refine ⟨.literal s tokens.peek, tokens.pop, .literal hkind, hrest, fun o => ?_⟩
      rw [root, StackEntry.ofSymbol, if_neg hne]
      exact Stops.of_next (Config.step_literal hs hlookahead (Or.inr (hpath.resolve_right hleaf)))
  | node p ds, hvalid, stack, path, trees, accepted, tokens, t, tail, _, ht, hspells => by
    have hp := hvalid.1
    have hnonTerminal := hd.wellFormed.isNonTerminal_left hp
    replace ht : t ∈ sets.followOf p.left := ht hnonTerminal
    replace hspells : tokens.Spells g (forestFrontier ds ++ t :: tail) := hspells
    obtain ⟨r, rest, hcons, hliteral, hr⟩ :=
      hd.settled.exists_mem_predict hd.wellFormed hvalid ht tail
    have hlookahead := ((hcons ▸ hspells).cons hd.wellFormed hliteral).1
    obtain ⟨-, hroots, hds⟩ := hvalid
    obtain ⟨children, tokens', hshows, hspells', hforest⟩ := forest_run ds hds (.ascend :: stack)
      ⟨p.left, []⟩ path trees accepted tokens p [] t tail hp hroots.symm ht hspells
    refine ⟨.branch p.left children, tokens', .branch hshows, hspells', fun o ho => ?_⟩
    rw [root, StackEntry.ofSymbol, if_neg (hd.wellFormed.left_ne_epsilon hp)]
    refine Stops.of_next (Config.step_expand hd.wellFormed hp hlookahead (hd.get?_eq hp hr)) ?_
    rw [← hroots]
    exact hforest o (Stops.of_next Config.step_ascend ho)

theorem forest_run : ∀ ds : List Derivation, ForestValid g ds →
    ∀ stack (b : OpenBranch) outer trees accepted tokens p before t tail, p ∈ g.productions →
    p.right = before ++ ds.map root → t ∈ sets.followOf p.left →
    tokens.Spells g (forestFrontier ds ++ t :: tail) →
    ∃ children tokens', Tree.ForestShows g children ds ∧ tokens'.Spells g (t :: tail) ∧
      ∀ o, Stops g table
          ⟨stack, ⟨b.symbol, b.children ++ children⟩ :: outer, trees, accepted, tokens'⟩ o →
        Stops g table
          ⟨(ds.map root).map .ofSymbol ++ stack, b :: outer, trees, accepted, tokens⟩ o
  | [], _, stack, b, outer, trees, accepted, tokens, _, _, _, _, _, _, _, hspells =>
    ⟨[], tokens, .nil, hspells, fun o ho => by rwa [List.append_nil] at ho⟩
  | d :: ds, hvalid, stack, b, outer, trees, accepted, tokens, p, before, t, tail, hp, hright, ht,
      hspells => by
    obtain ⟨r, rest, hcons, hr⟩ :=
      hd.settled.exists_mem_followOf_child hd.wellFormed hp hright hvalid.2 ht tail
    rw [forestFrontier, List.append_assoc, hcons] at hspells
    obtain ⟨tree, tokens₁, hshows, hspells₁, htree⟩ := tree_run d hvalid.1
      ((ds.map root).map .ofSymbol ++ stack) (b :: outer) trees accepted tokens r rest
      (Or.inl (List.cons_ne_nil _ _)) hr hspells
    rw [← hcons] at hspells₁
    obtain ⟨children, tokens₂, hshows', hspells₂, hforest⟩ := forest_run ds hvalid.2 stack
      ⟨b.symbol, b.children ++ [tree]⟩ outer trees accepted tokens₁ p (before ++ [d.root]) t tail hp
      (by rw [hright]; simp) ht hspells₁
    refine ⟨tree :: children, tokens₂, .cons hshows hshows', hspells₂, fun o ho => ?_⟩
    refine htree o (hforest o ?_)
    rwa [List.append_assoc]

end

/-- **The parser finds the tree of every derivation**, and stops there. -/
theorem exists_stops {x : SymbolId} (hx : g.isNonTerminal x) (hend : endMarkId ∈ sets.followOf x)
    {d : Derivation} (hvalid : d.Valid g) (hroot : d.root = x) {tokens : TokenStream}
    (hspells : tokens.Spells g (d.frontier ++ [endMarkId])) :
    ∃ tree rest, tree.Shows g d ∧ Stops g table (.initial x tokens) ⟨.ok ⟨[tree]⟩, rest⟩ := by
  subst hroot
  obtain ⟨tree, tokens', hshows, hspells', htree⟩ := hd.tree_run d hvalid [.symbol endMarkId] [] []
    false tokens endMarkId [] (Or.inr hx) (fun _ => hend) hspells
  obtain ⟨hlookahead, -, hrest⟩ := hspells'.cons hd.wellFormed hd.wellFormed.isLiteral_endMark
  refine ⟨tree, tokens'.pop, hshows, ?_⟩
  have hfinish : Stops g table ⟨[], [], [tree], true, tokens'.pop⟩
      ⟨.ok ⟨[tree]⟩, tokens'.pop⟩ := by
    refine Stops.of_stop ?_
    rw [Config.step, Config.finish]
    simp [TokenStream.isExhausted, hrest.rest_eq_nil]
  have hrun := htree _ (Stops.of_next (Config.step_accept hd.wellFormed hlookahead) hfinish)
  rwa [StackEntry.ofSymbol, if_neg (hd.wellFormed.ne_epsilon_of_isNonTerminal hx)] at hrun

/-- Two trees of one non-terminal over one word are equal, where the end mark can come after it. -/
theorem eq_of_frontier {d d' : Derivation} (hvalid : d.Valid g) (hvalid' : d'.Valid g)
    (hroot : d.root = d'.root) (hend : endMarkId ∈ sets.followOf d.root)
    (h : d.frontier = d'.frontier) : d = d' :=
  (hd.eq_of_frontier_eq d d' hvalid hvalid' hroot endMarkId [] endMarkId [] (fun _ => hend)
    (fun _ => hend) (by rw [h])).1

end Sets.Decides

/-! ## The parser of a grammar -/

namespace Grammar

variable {g : Grammar} {policy : ConflictPolicy} {table : PredictiveTable}

/-- The table of a well-formed grammar decides. -/
theorem WellFormed.exists_decides (hg : g.WellFormed)
    (htable : g.predictiveTable policy = .ok table) :
    ∃ sets, g.sets = .ok sets ∧ sets.Decides g table := by
  obtain ⟨sets, hsets, hs⟩ := hg.exists_sets
  exact ⟨sets, hsets, hg, hs, fun hp ht => sets.get?_of_mem_predict hsets htable hp ht⟩

/-- **A grammar whose table builds is parsed completely and in one way.**  The end mark can come
after the start symbol.  From any non-terminal that the end mark can come after, the parser stops
with the tree of every derivable word that the stream spells, and the word has no other tree.  So no
word of the start symbol has two trees. -/
theorem Built.parse_complete (hg : g.Built) (htable : g.predictiveTable policy = .ok table) :
    (∃ set, g.followOf g.start = .ok set ∧ endMarkId ∈ set) ∧
    (∀ x set, g.followOf x = .ok set → endMarkId ∈ set → ∀ (tokens : TokenStream) w, g.IsWord w →
      g.Derives [x] w → tokens.Spells g (w ++ [endMarkId]) →
      ∃ tree rest d, g.parseFrom table x tokens = some ⟨.ok ⟨[tree]⟩, rest⟩ ∧ tree.Shows g d ∧
        d.Valid g ∧ d.root = x ∧ d.frontier = w ∧
        ∀ d' : Derivation, d'.Valid g → d'.root = x → d'.frontier = w → d' = d) ∧
    ∀ d d' : Derivation, d.Valid g → d'.Valid g → d.root = g.start → d'.root = g.start →
      d.frontier = d'.frontier → d = d' := by
  have hwell := hg.wellFormed
  obtain ⟨sets, hsets, hd⟩ := hwell.exists_decides htable
  have hstart := hd.settled.endMark_mem_followOf_start hwell
  have hfollow {x : SymbolId} {set : List SymbolId} (h : g.followOf x = .ok set) :
      g.isNonTerminal x ∧ sets.followOf x = set := by
    have hx := isNonTerminal_of_followOf_eq_ok h
    obtain ⟨sets', -, hsets', hok⟩ := hwell.followOf_eq_ok hx
    obtain rfl := Except.ok.inj (hsets.symm.trans hsets')
    exact ⟨hx, Except.ok.inj (hok.symm.trans h)⟩
  refine ⟨?_, ?_, ?_⟩
  · obtain ⟨sets', -, hsets', hok⟩ := hwell.followOf_eq_ok hwell.start_nonTerminal
    obtain rfl := Except.ok.inj (hsets.symm.trans hsets')
    exact ⟨_, hok, hstart⟩
  · intro x set hset hend tokens w hw hderives hspells
    obtain ⟨hx, rfl⟩ := hfollow hset
    obtain ⟨d, hvalid, hroot, rfl⟩ := hderives.exists_derivation hwell hw
    obtain ⟨tree, rest, hshows, hstops⟩ := hd.exists_stops hx hend hvalid hroot hspells
    refine ⟨tree, rest, d, hwell.parseFrom_eq_some_iff.mpr hstops, hshows, hvalid, hroot, rfl,
      fun d' hvalid' hroot' hfrontier => ?_⟩
    subst hroot
    exact hd.eq_of_frontier hvalid' hvalid hroot' (hroot' ▸ hend) hfrontier
  · intro d d' hvalid hvalid' hroot hroot' hfrontier
    exact hd.eq_of_frontier hvalid hvalid' (hroot.trans hroot'.symm) (hroot ▸ hstart) hfrontier

theorem parse_complete_nested :
    ∃ tree rest d, nested.parseFrom nestedTable 2 (.ofList [⟨"a", none⟩, ⟨"b", none⟩]) =
        some ⟨.ok ⟨[tree]⟩, rest⟩ ∧ tree.Shows nested d ∧ d.Valid nested ∧ d.root = 2 ∧
      d.frontier = [3, 4] ∧
      ∀ d' : Derivation, d'.Valid nested → d'.root = 2 → d'.frontier = [3, 4] → d' = d := by
  have hderives : nested.Derives [2] [3, 4] :=
    .tail (.single (.intro [] [] ⟨1, 2, 0, [3, 2, 4]⟩ (by decide)))
      (.intro [3] [4] ⟨2, 2, 1, [epsilonId]⟩ (by decide))
  have hword : nested.IsWord [3, 4] := by
    unfold IsWord
    decide
  exact (nested_built.parse_complete nested_predictiveTable).2.1 2 [endMarkId, 4] rfl (by decide) _
    [3, 4] hword hderives ⟨1, rfl⟩

end Grammar

end GrammarTables
