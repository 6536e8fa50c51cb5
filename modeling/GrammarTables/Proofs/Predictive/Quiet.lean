import GrammarTables.Proofs.Predictive.Completeness
import Mathlib.Order.WellFounded

/-!
# Proofs/Predictive/Quiet — no parser goes on for ever without matching a literal

A step is quiet when it matches no literal (`QuietStep`): it expands, passes an empty string or
closes a branch.  It takes no token, so the lookahead `t` stays the same along quiet steps, and a
table without conflicts gives each non-terminal at most one production on `t`.

* A nullable symbol that `t` can follow is expanded by the alternative that made it nullable, which
  holds symbols of earlier rounds only.  So the parser gets past it
  (`Sets.Decides.passes_of_mem_nullable`).
* A non-terminal that can begin with `t` is expanded by the alternative that put `t` into its FIRST
  set.  The parser gets past what stands before the place where `t` comes from, and at that place it
  meets `t` itself or a symbol of an earlier round (`Sets.Decides.holdsUp_of_mem_first`).

Both are inductions on the rounds of the sets.  A left-recursive, cyclic or unproductive
non-terminal needs no care of its own: where it has a production on `t`, one of the two holds.
-/

namespace GrammarTables

variable {g : Grammar} {table : PredictiveTable} {policy : ConflictPolicy} {sets : Sets}
  {tokens : TokenStream} {c c' : Config} {entry : StackEntry} {below : List StackEntry}
  {p : Production} {s t : SymbolId} {w : List SymbolId}

/-! ## Quiet steps -/

/-- The entry on the top of the stack asks for a literal. -/
def Config.AtLiteral (g : Grammar) (c : Config) : Prop :=
  ∃ s below, c.stack = .symbol s :: below ∧ g.isLiteral s

/-- A step that matches no literal. -/
def QuietStep (g : Grammar) (table : PredictiveTable) (c c' : Config) : Prop :=
  c.step g table = .next c' ∧ ¬ c.AtLiteral g

/-- A step that matches a literal. -/
def MatchStep (g : Grammar) (table : PredictiveTable) (c c' : Config) : Prop :=
  c.step g table = .next c' ∧ c.AtLiteral g

/-- **A quiet step takes no token**, and it removes the entry on the top of the stack or expands
it. -/
theorem QuietStep.effect (hg : g.WellFormed) (h : QuietStep g table c c') :
    c'.tokens = c.tokens ∧
      ((∃ entry, c.stack = entry :: c'.stack ∧ ∀ s, entry = .symbol s → s = epsilonId) ∨
        ∃ p ∈ g.productions, ∃ below, c.stack = .symbol p.left :: below ∧
          (c.tokens.lookahead? g).bind (table.get? p.left) = some p.ordinal ∧
          c'.stack = p.right.map .ofSymbol ++ .ascend :: below) := by
  obtain ⟨hstep, hquiet⟩ := h
  have heffect := Config.step_effect hg table c
  rw [hstep] at heffect
  clear hstep
  cases heffect with
  | @epsilon entry stack path trees accepted tokens h =>
    refine ⟨Config.tokens_attach, Or.inl ⟨entry, by rw [Config.stack_attach], ?_⟩⟩
    rintro s rfl
    exact StackEntry.symbol.inj (h.resolve_left nofun)
  | ascend stack b outer trees accepted tokens =>
    exact ⟨Config.tokens_attach, Or.inl ⟨.ascend, by rw [Config.stack_attach], nofun⟩⟩
  | expand p t stack path trees accepted tokens hp ht hcell =>
    exact ⟨rfl, Or.inr ⟨p, hp, stack, rfl, by rw [ht]; exact hcell, rfl⟩⟩
  | accept stack trees accepted tokens ht =>
    exact absurd ⟨endMarkId, stack, rfl, hg.isLiteral_endMark⟩ hquiet
  | @consume s stack path trees accepted tokens ht hs =>
    exact absurd ⟨s, stack, rfl, hs⟩ hquiet

/-! ## Stacks that come to rest -/

/-- The quiet steps from here come to an end. -/
def Rests (g : Grammar) (table : PredictiveTable) (c : Config) : Prop :=
  Acc (fun c' c => QuietStep g table c c') c

/-- The quiet steps come to an end wherever the parser has this stack before these tokens. -/
def StackRests (g : Grammar) (table : PredictiveTable) (tokens : TokenStream)
    (stack : List StackEntry) : Prop :=
  ∀ c : Config, c.stack = stack → c.tokens = tokens → Rests g table c

/-- A stack that comes to rest still does with the symbol on it. -/
def Passes (g : Grammar) (table : PredictiveTable) (tokens : TokenStream) (s : SymbolId) : Prop :=
  ∀ below, StackRests g table tokens below → StackRests g table tokens (.ofSymbol s :: below)

/-- Any stack comes to rest with the symbol on it: the parser does not get past the symbol. -/
def HoldsUp (g : Grammar) (table : PredictiveTable) (tokens : TokenStream) (s : SymbolId) : Prop :=
  ∀ below, StackRests g table tokens (.ofSymbol s :: below)

/-- The entries of a sequence, one after the other. -/
theorem stackRests_map_append (hw : ∀ s ∈ w, Passes g table tokens s)
    (hbelow : StackRests g table tokens below) :
    StackRests g table tokens (w.map .ofSymbol ++ below) := by
  induction w with
  | nil => exact hbelow
  | cons s w ih =>
    exact hw s List.mem_cons_self _ (ih fun r hr => hw r (List.mem_cons_of_mem s hr))

section Stack

variable (hg : g.WellFormed)

include hg

theorem stackRests_nil : StackRests g table tokens [] := by
  intro c hstack _
  refine Acc.intro c fun c' h => ?_
  obtain ⟨-, ⟨entry, hc, -⟩ | ⟨p, -, below, hc, -⟩⟩ := h.effect hg
  · exact nomatch hstack.symm.trans hc
  · exact nomatch hstack.symm.trans hc

/-- A stack comes to rest if all that one quiet step can make of it does. -/
theorem stackRests_cons
    (hpop : (∀ s, entry = .symbol s → s = epsilonId) → StackRests g table tokens below)
    (hexpand : ∀ p ∈ g.productions, entry = .symbol p.left →
      (tokens.lookahead? g).bind (table.get? p.left) = some p.ordinal →
        StackRests g table tokens (p.right.map .ofSymbol ++ .ascend :: below)) :
    StackRests g table tokens (entry :: below) := by
  intro c hstack htokens
  refine Acc.intro c fun c' h => ?_
  obtain ⟨htokens', ⟨entry', hc, hentry⟩ | ⟨p, hp, below', hc, hcell, hstack'⟩⟩ := h.effect hg
  · obtain ⟨rfl, rfl⟩ := List.cons.inj (hstack.symm.trans hc)
    exact hpop hentry c' rfl (htokens'.trans htokens)
  · obtain ⟨rfl, rfl⟩ := List.cons.inj (hstack.symm.trans hc)
    exact hexpand p hp rfl (htokens ▸ hcell) c' hstack' (htokens'.trans htokens)

theorem stackRests_ascend (h : StackRests g table tokens below) :
    StackRests g table tokens (.ascend :: below) :=
  stackRests_cons hg (fun _ => h) fun _ _ hentry => nomatch hentry

theorem passes_epsilon : Passes g table tokens epsilonId := fun _ h =>
  stackRests_cons hg (fun _ => h) fun _ _ hentry => nomatch hentry

/-- No quiet step gets past a literal. -/
theorem holdsUp_of_isLiteral (hs : g.isLiteral s) : HoldsUp g table tokens s := by
  intro below
  have hne := hg.ne_epsilon_of_isLiteral hs
  rw [StackEntry.ofSymbol, if_neg hne]
  exact stackRests_cons hg (fun hentry => absurd (hentry s rfl) hne) fun _ hp hentry =>
    absurd (StackEntry.symbol.inj hentry).symm (hg.left_ne_of_isLiteral hp hs)

end Stack

/-! ## One lookahead -/

namespace Sets.Decides

variable (hd : sets.Decides g table) (ht : tokens.lookahead? g = some t)

include hd ht

/-- **The lookahead decides the alternative** that a left side is expanded by. -/
theorem stackRests_left (hp : p ∈ g.productions) (hpredict : t ∈ sets.predict g p.left p.right)
    (hright : StackRests g table tokens (p.right.map .ofSymbol ++ .ascend :: below)) :
    StackRests g table tokens (.ofSymbol p.left :: below) := by
  have hne := hd.wellFormed.left_ne_epsilon hp
  rw [StackEntry.ofSymbol, if_neg hne]
  refine stackRests_cons hd.wellFormed (fun hentry => absurd (hentry p.left rfl) hne) ?_
  intro q hq hentry hcell
  have hleft : p.left = q.left := StackEntry.symbol.inj hentry
  rw [ht, Option.bind_some, ← hleft, hd.get?_eq hp hpredict] at hcell
  rwa [← hd.wellFormed.eq_of_ordinal_eq hp hq (Option.some.inj hcell)]

/-- A left side is passed when the alternative that the lookahead predicts is. -/
theorem passes_left (hp : p ∈ g.productions) (hpredict : t ∈ sets.predict g p.left p.right)
    (hright : ∀ s ∈ p.right, Passes g table tokens s) : Passes g table tokens p.left :=
  fun _ hbelow => hd.stackRests_left ht hp hpredict
    (stackRests_map_append hright (stackRests_ascend hd.wellFormed hbelow))

/-- **The parser gets past a nullable symbol that the lookahead can follow.** -/
theorem passes_of_mem_nullable (hmem : s ∈ sets.nullable)
    (hfollow : g.isNonTerminal s → t ∈ sets.followOf s) : Passes g table tokens s := by
  refine (settle?_induction hd.settled.nullable_settled
    (motive := fun nullable => ∀ s ∈ nullable, s ∈ sets.nullable ∧
      ((g.isNonTerminal s → t ∈ sets.followOf s) → Passes g table tokens s))
    ?_ ?_ s hmem).2 hfollow
  · intro s hs
    rw [List.mem_singleton.mp hs]
    exact ⟨hd.settled.epsilon_mem_nullable, fun _ => passes_epsilon hd.wellFormed⟩
  · intro nullable ih s hs
    rcases Ascending.mem_insertAll.mp hs with hs | hs
    · obtain ⟨p, hp, rfl, hright⟩ := mem_moreNullable.mp hs
      rw [nullableSequence_iff] at hright
      have hnull : sets.nullableAll p.right :=
        Settled.nullableAll_iff.mpr fun r hr => (ih r (hright r hr)).1
      refine ⟨hd.settled.left_mem_nullable hp hnull, fun hfollow => ?_⟩
      have hleft := hfollow (hd.wellFormed.isNonTerminal_left hp)
      refine hd.passes_left ht hp (mem_firstOrFollow.mpr (Or.inr ⟨hnull, hleft⟩)) fun r hr => ?_
      refine (ih r (hright r hr)).2 fun hnonTerminal => ?_
      -- what comes after `r` in the alternative vanishes, so `t` can follow `r`
      obtain ⟨before, rest, hsplit⟩ := List.append_of_mem hr
      have hrest : sets.nullableAll rest := by
        rw [hsplit, Settled.nullableAll_append, Settled.nullableAll_cons] at hnull
        exact hnull.2.2
      exact hd.settled.mem_followOf_of_right hp hsplit hnonTerminal (Or.inr ⟨hrest, hleft⟩)
    · exact ih s hs

/-- The parser is held up in a sequence that can begin with the lookahead, if it is in the symbols
that a table of sets has the lookahead for. -/
theorem stackRests_of_mem_firstOfSequence {first : SetTable} (before : List SymbolId)
    (hfirst : ∀ s, t ∈ first.of s → t ∈ sets.first.of s ∧ HoldsUp g table tokens s)
    (hp : p ∈ g.productions) (hright : p.right = before ++ w)
    (hmem : t ∈ firstOfSequence g sets.nullable first w) :
    StackRests g table tokens (w.map .ofSymbol ++ below) := by
  induction w generalizing before with
  | nil => exact absurd hmem List.not_mem_nil
  | cons s w ih =>
    rw [firstOfSequence] at hmem
    split at hmem
    · next hliteral => exact holdsUp_of_isLiteral hd.wellFormed hliteral _
    · split at hmem
      · next hnullable =>
        rcases Ascending.mem_union.mp hmem with hmem | hmem
        · exact (hfirst s hmem).2 _
        · have hrest : t ∈ sets.firstOf g w :=
            mem_firstOfSequence_mono (fun s hs => (hfirst s hs).1) hmem
          have hpasses := hd.passes_of_mem_nullable ht (List.contains_iff_mem.mp hnullable)
            fun hs => hd.settled.mem_followOf_of_right hp hright hs (Or.inl hrest)
          have hsplit : p.right = (before ++ [s]) ++ w := by rw [hright]; simp
          exact hpasses _ (ih (before ++ [s]) hsplit hmem)
      · exact (hfirst s hmem).2 _

/-- **The parser is held up in a symbol that can begin with the lookahead.** -/
theorem holdsUp_of_mem_first (hmem : t ∈ sets.first.of s) : HoldsUp g table tokens s := by
  refine (settle?_induction hd.settled.first_settled
    (motive := fun first => ∀ s, t ∈ first.of s →
      t ∈ sets.first.of s ∧ HoldsUp g table tokens s) ?_ ?_ s hmem).2
  · intro s hs
    rw [SetTable.of_empty] at hs
    exact absurd hs List.not_mem_nil
  · intro first ih s hs
    rcases SetTable.mem_of_addAll.mp hs with hs | ⟨-, set, hset, hs⟩
    · exact ih s hs
    · obtain ⟨p, hp, rfl, rfl⟩ := mem_moreFirst.mp hset
      have hright : t ∈ sets.firstOf g p.right :=
        mem_firstOfSequence_mono (fun s hs => (ih s hs).1) hs
      refine ⟨hd.settled.mem_first_left hd.wellFormed hp hright, fun below => ?_⟩
      exact hd.stackRests_left ht hp (mem_firstOrFollow.mpr (Or.inl hright))
        (hd.stackRests_of_mem_firstOfSequence ht [] ih hp rfl hs)

/-- **The left side of a production that the lookahead predicts is passed**, or holds the parser
up. -/
theorem passes_of_mem_predict (hp : p ∈ g.productions)
    (hpredict : t ∈ sets.predict g p.left p.right) : Passes g table tokens p.left := by
  rcases mem_firstOrFollow.mp hpredict with hfirst | ⟨hnull, hfollow⟩
  · have hleft := hd.settled.mem_first_left hd.wellFormed hp hfirst
    exact fun below _ => hd.holdsUp_of_mem_first ht hleft below
  · exact hd.passes_of_mem_nullable ht (hd.settled.left_mem_nullable hp hnull) fun _ => hfollow

end Sets.Decides

/-! ## Every configuration -/

/-- **Every stack comes to rest.** -/
theorem Grammar.WellFormed.stackRests (hg : g.WellFormed)
    (htable : g.predictiveTable policy = .ok table) (tokens : TokenStream)
    (stack : List StackEntry) : StackRests g table tokens stack := by
  obtain ⟨sets, hsets, hd⟩ := hg.exists_decides htable
  induction stack with
  | nil => exact stackRests_nil hg
  | cons entry below ih =>
    by_cases hexpands : ∃ p ∈ g.productions, entry = .symbol p.left ∧
        (tokens.lookahead? g).bind (table.get? p.left) = some p.ordinal
    · obtain ⟨p, hp, rfl, hbind⟩ := hexpands
      obtain ⟨t, ht, hcell⟩ := Option.bind_eq_some_iff.mp hbind
      obtain ⟨q, hq, -, hordinal, hpredict⟩ := (Sets.get?_eq_some_iff hsets htable).mp hcell
      obtain rfl := hg.eq_of_ordinal_eq hq hp hordinal
      have hpasses := hd.passes_of_mem_predict ht hq hpredict below ih
      rwa [StackEntry.ofSymbol, if_neg (hg.left_ne_epsilon hq)] at hpasses
    · exact stackRests_cons hg (fun _ => ih) fun p hp hentry hcell =>
        absurd ⟨p, hp, hentry, hcell⟩ hexpands

/-- A parser whose quiet steps come to an end is then about to match a literal or to stop. -/
theorem Rests.exists_match_or_stop (h : Rests g table c) :
    ∃ c', Relation.ReflTransGen (QuietStep g table) c c' ∧
      ((∃ c'', MatchStep g table c' c'') ∨ ∃ o, c'.step g table = .stop o) := by
  induction h with
  | intro c _ ih =>
    cases hstep : c.step g table with
    | stop o => exact ⟨c, .refl, Or.inr ⟨o, hstep⟩⟩
    | next c' =>
      by_cases hliteral : c.AtLiteral g
      · exact ⟨c, .refl, Or.inl ⟨c', hstep, hliteral⟩⟩
      · have hquiet : QuietStep g table c c' := ⟨hstep, hliteral⟩
        obtain ⟨c'', hsteps, hend⟩ := ih c' hquiet
        exact ⟨c'', .head hquiet hsteps, hend⟩

/-- **A parser with the table of its grammar cannot go on for ever without matching a literal.**
From every configuration, whatever it was reached from and on whatever tokens, there are finitely
many steps that expand, pass an empty string or close a branch, and then it matches a literal or
stops. -/
theorem Grammar.Built.no_quiet_loop (hg : g.Built)
    (htable : g.predictiveTable policy = .ok table) (c : Config) :
    (¬ ∃ states : Nat → Config, states 0 = c ∧
      ∀ n, QuietStep g table (states n) (states (n + 1))) ∧
    ∃ c', Relation.ReflTransGen (QuietStep g table) c c' ∧
      ((∃ c'', MatchStep g table c' c'') ∨ ∃ o, c'.step g table = .stop o) := by
  have hrests : Rests g table c := hg.wellFormed.stackRests htable c.tokens c.stack c rfl rfl
  refine ⟨?_, hrests.exists_match_or_stop⟩
  rintro ⟨states, hstart, hsteps⟩
  exact (acc_iff_isEmpty_descending_chain.mp hrests).false ⟨states, hstart, hsteps⟩

theorem Grammar.no_quiet_loop_tangled :
    let c := Config.initial 5 (.ofList [⟨"a", none⟩])
    (¬ ∃ states : Nat → Config, states 0 = c ∧
      ∀ n, QuietStep tangled tangledTable (states n) (states (n + 1))) ∧
    ∃ c', Relation.ReflTransGen (QuietStep tangled tangledTable) c c' ∧
      ((∃ c'', MatchStep tangled tangledTable c' c'') ∨
        ∃ o, c'.step tangled tangledTable = .stop o) :=
  tangled_built.no_quiet_loop (tangled_predictiveTable .failFast) _

end GrammarTables
