import GrammarTables.Proofs.Predictive.Run
import GrammarTables.Proofs.Predictive.Table
import GrammarTables.Proofs.Predictive.Tree

/-!
# Proofs/Predictive/Soundness — a successful parse gives a tree of its tokens

Nothing is asked of the table: it may be that of another grammar.

Two facts about a state of the parser hold from the first step to the last (`Config.Sound`).  The
stack has exactly what the open branches still lack (`Lacks`): each of them has its children, then
the branch inside it, then a stretch of the stack that ends with its `ascend` entry, and together
they are a right side of the grammar.  And the tokens of the trees built so far are those taken from
the stream (`TokenStream.Yields`), end marks past its end included.
-/

namespace GrammarTables

/-! ## Taking tokens -/

namespace TokenStream

variable {tokens s : TokenStream} {taken : List Token}

/-- Taking the tokens `taken` from `tokens` leaves `s`. -/
structure Yields (tokens : TokenStream) (taken : List Token) (s : TokenStream) : Prop where
  /-- The end marks among them come after all tokens of the stream. -/
  tokens_eq : ∃ j, taken ++ s.rest = tokens.rest ++ List.replicate j Token.endMark ∧
    (s.rest ≠ [] → j = 0)
  position_eq : s.position + s.rest.length = tokens.position + tokens.rest.length

theorem Yields.refl (tokens : TokenStream) : tokens.Yields [] tokens :=
  ⟨⟨0, (List.append_nil _).symm, fun _ => rfl⟩, rfl⟩

/-- **Taking the next token.** -/
theorem Yields.pop (h : tokens.Yields taken s) : tokens.Yields (taken ++ [s.peek]) s.pop := by
  obtain ⟨⟨j, htokens, hj⟩, hposition⟩ := h
  obtain ⟨position, rest⟩ := s
  cases rest with
  | nil =>
    refine ⟨⟨j + 1, ?_, fun h => absurd rfl h⟩, hposition⟩
    rw [List.append_nil] at htokens
    change taken ++ [Token.endMark] ++ [] = _
    rw [List.append_nil, htokens, List.replicate_succ', List.append_assoc]
  | cons token rest =>
    refine ⟨⟨j, ?_, fun _ => hj (List.cons_ne_nil _ _)⟩, ?_⟩
    · change taken ++ [token] ++ rest = _
      rw [← htokens, List.append_assoc]
      rfl
    · rw [← hposition]
      exact Nat.add_right_comm position 1 rest.length

end TokenStream

/-! ## What the stack still has to match -/

section Lacks

variable {g : Grammar} {x r s : SymbolId} {trees : List Tree} {inner : List SymbolId}
  {path : List OpenBranch} {stack : List StackEntry} {t : Tree}

/-- The stack is what the open branches and the root lack, when `inner` is under construction in the
innermost of them. -/
def Lacks (g : Grammar) (x : SymbolId) (trees : List Tree) :
    List SymbolId → List OpenBranch → List StackEntry → Prop
  | inner, [], stack => ∃ rest, [x] = trees.map Tree.symbol ++ inner ++ rest ∧
      stack = rest.map StackEntry.symbol ++ [.symbol endMarkId]
  | inner, b :: outer, stack => ∃ p ∈ g.productions, ∃ rest below, p.left = b.symbol ∧
      p.right = b.children.map Tree.symbol ++ inner ++ rest ∧
      stack = rest.map StackEntry.ofSymbol ++ .ascend :: below ∧
      Lacks g x trees [b.symbol] outer below

/-- A finished tree becomes a child where it was under construction. -/
theorem Lacks.attach {c : Config} (h : Lacks g x c.trees [t.symbol] c.path c.stack) :
    Lacks g x (c.attach t).trees [] (c.attach t).path (c.attach t).stack := by
  obtain ⟨stack, path, trees, accepted, tokens⟩ := c
  cases path with
  | nil =>
    obtain ⟨rest, hroot, hstack⟩ := h
    refine ⟨rest, ?_, hstack⟩
    rw [hroot]
    simp [Config.attach]
  | cons b outer =>
    obtain ⟨p, hp, rest, below, hleft, hright, hstack, hbelow⟩ := h
    refine ⟨p, hp, rest, below, hleft, ?_, hstack, hbelow⟩
    rw [hright]
    simp

theorem StackEntry.ofSymbol_ne_ascend : StackEntry.ofSymbol s ≠ .ascend := by
  rw [ofSymbol]
  split <;> simp

theorem StackEntry.eq_of_ofSymbol_eq_symbol (h : StackEntry.ofSymbol r = .symbol s) : r = s := by
  rw [ofSymbol] at h
  split at h
  · simp at h
  · exact StackEntry.symbol.inj h

theorem StackEntry.eq_of_ofSymbol_eq_epsilon (h : StackEntry.ofSymbol r = .epsilon) :
    r = epsilonId := by
  rw [ofSymbol] at h
  split at h
  · assumption
  · simp at h

/-- An entry for a symbol stands for the next child, if it is not the end mark at the bottom. -/
theorem Lacks.of_entry {entry : StackEntry} (h : Lacks g x trees [] path (entry :: stack))
    (hne : entry ≠ .ascend) :
    (∃ r, (StackEntry.ofSymbol r = entry ∨ .symbol r = entry) ∧ Lacks g x trees [r] path stack) ∨
      entry = .symbol endMarkId ∧ path = [] ∧ stack = [] ∧ trees.map Tree.symbol = [x] := by
  cases path with
  | nil =>
    obtain ⟨rest, hroot, hstack⟩ := h
    rw [List.append_nil] at hroot
    cases rest with
    | nil =>
      obtain ⟨rfl, rfl⟩ := List.cons.inj hstack
      rw [List.append_nil] at hroot
      exact Or.inr ⟨rfl, rfl, rfl, hroot.symm⟩
    | cons r rest =>
      obtain ⟨rfl, rfl⟩ := List.cons.inj hstack
      refine Or.inl ⟨r, Or.inr rfl, rest, ?_, rfl⟩
      rw [hroot, List.append_assoc, List.singleton_append]
  | cons b outer =>
    obtain ⟨p, hp, rest, below, hleft, hright, hstack, hbelow⟩ := h
    cases rest with
    | nil => exact absurd (List.cons.inj hstack).1 hne
    | cons r rest =>
      obtain ⟨rfl, rfl⟩ := List.cons.inj hstack
      refine Or.inl ⟨r, Or.inl rfl, p, hp, rest, below, hleft, ?_, rfl, hbelow⟩
      rw [hright, List.append_nil, List.append_assoc, List.singleton_append]

theorem Lacks.of_epsilon (h : Lacks g x trees [] path (.epsilon :: stack)) :
    Lacks g x trees [epsilonId] path stack := by
  rcases h.of_entry nofun with ⟨r, hr | hr, hlacks⟩ | ⟨hentry, -⟩
  · exact StackEntry.eq_of_ofSymbol_eq_epsilon hr ▸ hlacks
  · exact nomatch hr
  · exact nomatch hentry

theorem Lacks.of_symbol (h : Lacks g x trees [] path (.symbol s :: stack)) :
    Lacks g x trees [s] path stack ∨
      s = endMarkId ∧ path = [] ∧ stack = [] ∧ trees.map Tree.symbol = [x] := by
  rcases h.of_entry nofun with ⟨r, hr | hr, hlacks⟩ | ⟨hentry, hbottom⟩
  · exact Or.inl (StackEntry.eq_of_ofSymbol_eq_symbol hr ▸ hlacks)
  · exact Or.inl (StackEntry.symbol.inj hr ▸ hlacks)
  · exact Or.inr ⟨StackEntry.symbol.inj hentry, hbottom⟩

/-- The innermost branch has all its children when its `ascend` entry is met. -/
theorem Lacks.of_ascend {b : OpenBranch} {outer : List OpenBranch}
    (h : Lacks g x trees [] (b :: outer) (.ascend :: stack)) :
    Lacks g x trees [b.symbol] outer stack ∧
      ∃ p ∈ g.productions, p.left = b.symbol ∧ p.right = b.children.map Tree.symbol := by
  obtain ⟨p, hp, rest, below, hleft, hright, hstack, hbelow⟩ := h
  cases rest with
  | nil =>
    obtain ⟨-, rfl⟩ := List.cons.inj hstack
    rw [List.append_nil, List.append_nil] at hright
    exact ⟨hbelow, p, hp, hleft, hright⟩
  | cons r rest => exact absurd (List.cons.inj hstack).1.symm StackEntry.ofSymbol_ne_ascend

/-- A branch is opened for a symbol under construction. -/
theorem Lacks.expand {p : Production} (hp : p ∈ g.productions)
    (h : Lacks g x trees [p.left] path stack) :
    Lacks g x trees [] (⟨p.left, []⟩ :: path) (p.right.map .ofSymbol ++ .ascend :: stack) :=
  ⟨p, hp, p.right, stack, rfl, rfl, rfl, h⟩

end Lacks

/-! ## The invariant -/

namespace Config

variable {g : Grammar} {table : PredictiveTable} {x : SymbolId} {tokens : TokenStream}
  {c c' : Config} {t : Tree}

/-- The finished trees in the order of their tokens: those below the root, then the children of the
open branches from the outermost inwards. -/
def finished (c : Config) : List Tree :=
  c.trees ++ c.path.reverse.flatMap OpenBranch.children

@[simp]
theorem finished_attach : (c.attach t).finished = c.finished ++ [t] := by
  obtain ⟨stack, path, trees, accepted, tokens⟩ := c
  cases path with
  | nil => simp [attach, finished]
  | cons b outer => simp [attach, finished]

/-- A branch that is opened has no child yet. -/
theorem finished_open {stack stack' : List StackEntry} {path : List OpenBranch}
    {trees : List Tree} {accepted : Bool} {rest : TokenStream} {s : SymbolId} :
    finished ⟨stack, ⟨s, []⟩ :: path, trees, accepted, rest⟩ =
      finished ⟨stack', path, trees, accepted, rest⟩ := by
  simp [finished]

/-- The children of the innermost branch are finished last. -/
theorem finished_close {stack stack' : List StackEntry} {b : OpenBranch}
    {outer : List OpenBranch} {trees : List Tree} {accepted : Bool} {rest : TokenStream} :
    finished ⟨stack, b :: outer, trees, accepted, rest⟩ =
      finished ⟨stack', outer, trees, accepted, rest⟩ ++ b.children := by
  simp [finished]

/-- What holds of every state of a parse from `x`, besides that the finished trees follow the
rules. -/
inductive Phase (g : Grammar) (x : SymbolId) (tokens : TokenStream) (c : Config) : Prop
  /-- The end mark at the bottom is still there. -/
  | matching (hx : x ≠ endMarkId) (haccepted : c.accepted = false)
    (hlacks : Lacks g x c.trees [] c.path c.stack)
    (hyields : tokens.Yields (Tree.forestTokens c.finished) c.tokens)
  /-- It has been matched after the tree of `x`. -/
  | accepted (bottom : Token) (hbottom : bottom.kind = Symbol.endMarkName) (hstack : c.stack = [])
    (hpath : c.path = []) (htrees : c.trees.map Tree.symbol = [x])
    (hyields : tokens.Yields (Tree.forestTokens c.finished ++ [bottom]) c.tokens)
  /-- A parse from the end mark never has a tree. -/
  | bare (hpath : c.path = []) (htrees : c.trees = [])
    (hstack : ∀ entry ∈ c.stack, entry = .symbol endMarkId)

/-- The invariant of a parse from `x`. -/
structure Sound (g : Grammar) (x : SymbolId) (tokens : TokenStream) (c : Config) : Prop where
  follows : Tree.ForestFollowsRules g c.finished
  phase : Phase g x tokens c

theorem sound_initial (x : SymbolId) (tokens : TokenStream) :
    Sound g x tokens (initial x tokens) := by
  refine ⟨trivial, ?_⟩
  by_cases hx : x = endMarkId
  · subst hx
    exact .bare rfl rfl (by simp [initial])
  · exact .matching hx rfl ⟨[x], rfl, rfl⟩ (.refl tokens)

/-- A finished tree keeps the invariant where it was under construction. -/
theorem Sound.attach (hfollows : Tree.ForestFollowsRules g c.finished) (ht : t.FollowsRules g)
    (hx : x ≠ endMarkId) (haccepted : c.accepted = false)
    (hlacks : Lacks g x c.trees [t.symbol] c.path c.stack)
    (hyields : tokens.Yields (Tree.forestTokens c.finished ++ t.tokens) c.tokens) :
    Sound g x tokens (c.attach t) := by
  constructor
  · rw [finished_attach, Tree.forestFollowsRules_append, Tree.forestFollowsRules_singleton]
    exact ⟨hfollows, ht⟩
  · refine .matching hx (accepted_attach.trans haccepted) hlacks.attach ?_
    rwa [finished_attach, Tree.forestTokens_append, Tree.forestTokens_singleton, tokens_attach]

/-- A step keeps the invariant before the end mark at the bottom is matched. -/
theorem Sound.step_of_matching (hg : g.WellFormed) (heffect : Effect g table c (.next c'))
    (hfollows : Tree.ForestFollowsRules g c.finished) (hx : x ≠ endMarkId)
    (haccepted : c.accepted = false) (hlacks : Lacks g x c.trees [] c.path c.stack)
    (hyields : tokens.Yields (Tree.forestTokens c.finished) c.tokens) : Sound g x tokens c' := by
  cases heffect with
  | epsilon stack path trees accepted rest h =>
    refine Sound.attach hfollows trivial hx haccepted ?_ ?_
    · rcases h with rfl | rfl
      · exact hlacks.of_epsilon
      · exact hlacks.of_symbol.resolve_right fun h => absurd h.1 (by decide)
    · rwa [Tree.tokens, List.append_nil]
  | ascend stack b outer trees accepted rest =>
    obtain ⟨hbelow, p, hp, hleft, hright⟩ := hlacks.of_ascend
    have hfinished : finished ⟨.ascend :: stack, b :: outer, trees, accepted, rest⟩ =
        finished ⟨stack, outer, trees, accepted, rest⟩ ++ b.children := finished_close
    rw [hfinished] at hfollows hyields
    rw [Tree.forestTokens_append] at hyields
    obtain ⟨houter, hchildren⟩ := Tree.forestFollowsRules_append.mp hfollows
    refine Sound.attach houter ⟨?_, hchildren⟩ hx haccepted hbelow hyields
    rw [← hleft, ← hright]
    exact hg.alternatives_left hp
  | expand p t stack path trees accepted rest hp ht hcell =>
    have hinner := hlacks.of_symbol.resolve_right fun h =>
      hg.left_ne_of_isLiteral hp hg.isLiteral_endMark h.1
    constructor
    · rwa [finished_open]
    · refine .matching hx haccepted (hinner.expand hp) ?_
      rwa [finished_open]
  | accept stack trees accepted rest ht =>
    rcases hlacks.of_symbol with ⟨below, hroot, -⟩ | ⟨-, -, hstack, htrees⟩
    · exact absurd (List.mem_singleton.mp (hroot ▸ by simp)).symm hx
    · refine ⟨hfollows, .accepted rest.peek ?_ hstack rfl htrees hyields.pop⟩
      rw [(TokenStream.kind_peek_of_lookahead? ht).2, hg.nameOf_endMark]
  | consume stack path trees accepted rest ht hs hinner =>
    refine Sound.attach hfollows (TokenStream.kind_peek_of_lookahead? ht) hx haccepted ?_
      hyields.pop
    refine hlacks.of_symbol.resolve_right fun h => ?_
    exact hinner.elim (absurd h.1) (absurd h.2.1)

/-- **A step keeps the invariant.** -/
theorem Sound.step (hg : g.WellFormed) (hc : Sound g x tokens c)
    (h : c.step g table = .next c') : Sound g x tokens c' := by
  obtain ⟨hfollows, hphase⟩ := hc
  have heffect := step_effect hg table c
  rw [h] at heffect
  clear h
  cases hphase with
  | matching hx haccepted hlacks hyields =>
    exact Sound.step_of_matching hg heffect hfollows hx haccepted hlacks hyields
  | accepted bottom hbottom hstack hpath htrees hyields =>
    obtain ⟨stack, path, trees, accepted, rest⟩ := c
    obtain rfl : stack = [] := hstack
    nomatch heffect
  | bare hpath htrees hstack =>
    cases heffect with
    | accept stack trees accepted rest ht =>
      exact ⟨hfollows, .bare rfl htrees fun entry h => hstack entry (List.mem_cons_of_mem _ h)⟩
    | epsilon stack path trees accepted rest h =>
      rcases h with rfl | rfl
      · exact nomatch hstack _ List.mem_cons_self
      · exact absurd (StackEntry.symbol.inj (hstack _ List.mem_cons_self)) (by decide)
    | ascend => exact nomatch hpath
    | expand p t stack path trees accepted rest hp =>
      exact absurd (StackEntry.symbol.inj (hstack _ List.mem_cons_self))
        (hg.left_ne_of_isLiteral hp hg.isLiteral_endMark)
    | consume stack path trees accepted rest ht hs hinner =>
      exact hinner.elim (absurd (StackEntry.symbol.inj (hstack _ List.mem_cons_self)))
        (absurd hpath)

/-- When the parse succeeds, the end mark at the bottom has been matched, no branch is open, and no
token is left. -/
theorem finish_eq_ok {tree : ParseTree} (h : (c.finish g).result = .ok tree) :
    c.accepted = true ∧ c.path = [] ∧ c.trees ≠ [] ∧ c.tokens.rest = [] ∧ tree = ⟨c.trees⟩ := by
  dsimp only [finish] at h
  split at h
  · exact nomatch h
  · next haccepted =>
    split at h
    · exact nomatch h
    · next hbalanced =>
      split at h
      · exact nomatch h
      · next hexhausted =>
        simp only [Bool.or_eq_true, Bool.not_eq_true', not_or, Bool.not_eq_false,
          List.isEmpty_iff] at haccepted hbalanced
        rw [Bool.not_eq_true', Bool.not_eq_false] at hexhausted
        exact ⟨haccepted, hbalanced.1, hbalanced.2, List.isEmpty_iff.mp hexhausted,
          (Except.ok.inj h).symm⟩

end Config

/-- The outcome, if it is a success, is a tree of `x` whose leaves are the tokens of the stream. -/
def Outcome.Sound (g : Grammar) (x : SymbolId) (tokens : TokenStream) (o : Outcome) : Prop :=
  ∀ tree, o.result = .ok tree → ∃ t, tree.trees = [t] ∧ t.symbol = x ∧ t.FollowsRules g ∧
    (∃ bottom j, bottom.kind = Symbol.endMarkName ∧
      t.tokens ++ [bottom] = tokens.rest ++ List.replicate j Token.endMark) ∧
    o.tokens = ⟨tokens.position + tokens.rest.length, []⟩

/-- Once the end mark at the bottom is matched there is one tree, unless there is none at all, and
its tokens and the end mark have been taken. -/
theorem Config.Sound.exists_tree {g : Grammar} {x : SymbolId} {tokens : TokenStream} {c : Config}
    (hc : c.Sound g x tokens) (haccepted : c.accepted = true) (hne : c.trees ≠ []) :
    ∃ (t : Tree) (bottom : Token), c.trees = [t] ∧ t.symbol = x ∧ t.FollowsRules g ∧
      bottom.kind = Symbol.endMarkName ∧ tokens.Yields (t.tokens ++ [bottom]) c.tokens := by
  obtain ⟨hfollows, hphase⟩ := hc
  cases hphase with
  | matching hx hnot => exact absurd (hnot.symm.trans haccepted) Bool.false_ne_true
  | bare hpath htrees => exact absurd htrees hne
  | accepted bottom hbottom hstack hpath htrees hyields =>
    obtain ⟨t, ht, hsymbol⟩ := List.map_eq_singleton_iff.mp htrees
    have hfinished : c.finished = [t] := by
      rw [finished, hpath, ht]
      rfl
    rw [hfinished] at hfollows hyields
    rw [Tree.forestTokens_singleton] at hyields
    exact ⟨t, bottom, ht, hsymbol, Tree.forestFollowsRules_singleton.mp hfollows, hbottom, hyields⟩

/-- The parser stops soundly. -/
theorem Config.Sound.stop {g : Grammar} {table : PredictiveTable} {x : SymbolId}
    {tokens : TokenStream} {c : Config} {o : Outcome} (hg : g.WellFormed)
    (hc : c.Sound g x tokens) (h : c.step g table = .stop o) : o.Sound g x tokens := by
  intro tree htree
  have heffect := step_effect hg table c
  rw [h] at heffect
  clear h
  cases heffect with
  | finish path trees accepted rest =>
    obtain ⟨haccepted, rfl, hne, hrest, rfl⟩ := finish_eq_ok htree
    obtain ⟨t, bottom, ht, hsymbol, hfollows, hbottom, ⟨j, htokens, -⟩, hposition⟩ :=
      hc.exists_tree haccepted hne
    obtain ⟨position, rest⟩ := rest
    obtain rfl : rest = [] := hrest
    rw [List.append_nil] at htokens
    obtain rfl : position = tokens.position + tokens.rest.length := hposition
    exact ⟨t, ht, hsymbol, hfollows, ⟨bottom, j, hbottom, htokens⟩, rfl⟩
  | _ => exact nomatch htree

/-- Every parse that stops does so soundly. -/
theorem Stops.sound {g : Grammar} {table : PredictiveTable} {x : SymbolId} {tokens : TokenStream}
    {o : Outcome} (hg : g.WellFormed) (h : Stops g table (.initial x tokens) o) :
    o.Sound g x tokens := by
  obtain ⟨fuel, hrun⟩ := h
  exact run_induction (fun c c' hc h => hc.step hg h) (fun c o hc h => hc.stop hg h)
    (Config.sound_initial x tokens) hrun

/-- **A parse that succeeds gives one tree of its start symbol.**  The tree follows the rules of the
grammar, its leaves and one end mark more are the tokens of the stream, end marks past its end
included, and all tokens are taken. -/
theorem Grammar.Built.parse_sound {g : Grammar} (hg : g.Built) {table : PredictiveTable}
    {x : SymbolId} {tokens rest : TokenStream} {tree : ParseTree}
    (h : Stops g table (.initial x tokens) ⟨.ok tree, rest⟩) :
    ∃ t, tree.trees = [t] ∧ t.symbol = x ∧ t.FollowsRules g ∧
      (∃ bottom j, bottom.kind = Symbol.endMarkName ∧
        t.tokens ++ [bottom] = tokens.rest ++ List.replicate j Token.endMark) ∧
      rest = ⟨tokens.position + tokens.rest.length, []⟩ := by
  obtain ⟨fuel, hrun⟩ := h
  have hsound : Outcome.Sound g x tokens ⟨.ok tree, rest⟩ :=
    run_induction (fun c c' hc h => hc.step hg.wellFormed h)
      (fun c o hc h => hc.stop hg.wellFormed h) (Config.sound_initial x tokens) hrun
  exact hsound tree rfl

theorem Grammar.parse_sound_nested :
    let tokens := TokenStream.ofList [⟨"a", some "x"⟩, ⟨"b", none⟩]
    let tree := Tree.branch 2 [.literal 3 ⟨"a", some "x"⟩, .branch 2 [.epsilon],
      .literal 4 ⟨"b", none⟩]
    Stops nested nestedTable (.initial 2 tokens) ⟨.ok ⟨[tree]⟩, ⟨2, []⟩⟩ ∧
      ∃ t, [tree] = [t] ∧ t.symbol = 2 ∧ t.FollowsRules nested ∧
        (∃ bottom j, bottom.kind = Symbol.endMarkName ∧
          t.tokens ++ [bottom] = tokens.rest ++ List.replicate j Token.endMark) ∧
        TokenStream.mk 2 [] = ⟨tokens.position + tokens.rest.length, []⟩ := by
  intro tokens tree
  have h : Stops nested nestedTable (.initial 2 tokens) ⟨.ok ⟨[tree]⟩, ⟨2, []⟩⟩ := ⟨9, rfl⟩
  exact ⟨h, nested_built.parse_sound h⟩

end GrammarTables
