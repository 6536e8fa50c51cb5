import GrammarTables.Proofs.Predictive.Quiet
import GrammarTables.Proofs.Predictive.Soundness

/-!
# Proofs/Predictive/Matches — runs with their literals counted

The kinds of the tokens to come never end (`TokenStream.kinds`), since the stream goes on with end
marks.  `Matches` counts the literals that a run matches, each with the next of these kinds, and a
parser that never stops matches any number of them (`exists_matches_or_stops`).

The machine has errors for states that it cannot reach: an `ascend` entry without an open branch, a
number that is no symbol's, an ordinal that is no production's.  `Config.Balanced` excludes them, so
a parser that stops has found an empty stack, no prediction, or another literal
(`Config.Balanced.stop`).
-/

namespace GrammarTables

variable {g : Grammar} {table : PredictiveTable} {policy : ConflictPolicy} {sets : Sets}
  {tokens : TokenStream} {c c' : Config} {o : Outcome} {t : SymbolId} {m n : Nat}

/-! ## The kinds to come -/

namespace TokenStream

/-- The kinds of the next `n` tokens; end marks come after the last token. -/
def kinds (tokens : TokenStream) (n : Nat) : List String :=
  (tokens.rest.map Token.kind ++ List.replicate n Symbol.endMarkName).take n

/-- **The kind of the next token comes first.** -/
theorem kinds_succ : tokens.kinds (n + 1) = tokens.peek.kind :: tokens.pop.kinds n := by
  obtain ⟨position, rest⟩ := tokens
  cases rest with
  | nil => simp [kinds, peek, pop, Token.endMark, List.replicate_succ]
  | cons token rest =>
    have hlength : n ≤ n + 1 + rest.length := by omega
    simp [kinds, peek, pop, List.take_append, List.take_replicate, hlength]

/-- The next kind after `n` of them is that of the token they lead to. -/
theorem kinds_succ' : tokens.kinds (n + 1) = tokens.kinds n ++ [(pop^[n] tokens).peek.kind] := by
  induction n generalizing tokens with
  | zero => rw [kinds_succ]; rfl
  | succ n ih =>
    rw [kinds_succ, ih, kinds_succ, Function.iterate_succ_apply]
    rfl

/-- The tokens in front do not change when the stream is popped, only which of them are taken. -/
theorem position_add_length_pop :
    tokens.pop.position + tokens.pop.rest.length = tokens.position + tokens.rest.length := by
  obtain ⟨position, rest⟩ := tokens
  cases rest with
  | nil => rfl
  | cons token rest => exact Nat.add_right_comm position 1 rest.length

/-- The cursor moves by one token for each one that is taken, up to the end of the stream. -/
theorem position_pop_iterate : (pop^[m] tokens).position =
    min (tokens.position + m) (tokens.position + tokens.rest.length) := by
  induction m generalizing tokens with
  | zero => simp
  | succ m ih =>
    rw [Function.iterate_succ_apply, ih, position_add_length_pop]
    obtain ⟨position, rest⟩ := tokens
    cases rest with
    | nil => simp [pop]
    | cons token rest => simp only [pop]; omega

/-- The next token is the lookahead for the literal it names. -/
theorem lookahead?_eq_some_iff (hg : g.WellFormed) : tokens.lookahead? g = some t ↔
    g.isLiteral t ∧ tokens.peek.kind = g.nameOf t := by
  refine ⟨kind_peek_of_lookahead?, fun ⟨ht, hkind⟩ => ?_⟩
  rw [lookahead?, hkind, hg.index?_nameOf (Grammar.lt_length_of_isLiteral ht), Option.filter_some,
    if_pos ht]

end TokenStream

/-! ## Runs with the literals counted -/

/-- **A match takes the literal off the stack and its token from the stream.** -/
theorem MatchStep.effect (hg : g.WellFormed) (h : MatchStep g table c c') :
    ∃ s, c.stack = .symbol s :: c'.stack ∧ g.isLiteral s ∧ c.tokens.peek.kind = g.nameOf s ∧
      c'.tokens = c.tokens.pop := by
  obtain ⟨hstep, s, below, hstack, hs⟩ := h
  have heffect := Config.step_effect hg table c
  rw [hstep] at heffect
  clear hstep
  cases heffect with
  | epsilon stack path trees accepted tokens h =>
    rcases h with rfl | rfl
    · exact nomatch (List.cons.inj hstack).1
    · obtain rfl := StackEntry.symbol.inj (List.cons.inj hstack).1
      exact absurd hs hg.not_isLiteral_epsilon
  | ascend => exact nomatch (List.cons.inj hstack).1
  | expand p t stack path trees accepted tokens hp =>
    exact absurd (StackEntry.symbol.inj (List.cons.inj hstack).1) (hg.left_ne_of_isLiteral hp hs)
  | accept stack trees accepted tokens ht =>
    obtain ⟨hs, hkind⟩ := TokenStream.kind_peek_of_lookahead? ht
    exact ⟨endMarkId, rfl, hs, hkind, rfl⟩
  | @consume s stack path trees accepted tokens ht hs =>
    exact ⟨s, by rw [Config.stack_attach], hs, (TokenStream.kind_peek_of_lookahead? ht).2,
      Config.tokens_attach⟩

/-- The parser gets from one state to another and matches that many literals on the way. -/
inductive Matches (g : Grammar) (table : PredictiveTable) : Config → Nat → Config → Prop
  | refl (c : Config) : Matches g table c 0 c
  | quiet {c c' c'' : Config} {m : Nat} (hstep : QuietStep g table c c')
    (h : Matches g table c' m c'') : Matches g table c m c''
  | literal {c c' c'' : Config} {m : Nat} (hstep : MatchStep g table c c')
    (h : Matches g table c' m c'') : Matches g table c (m + 1) c''

/-- The parser stops with `o` after it has matched `m` literals. -/
def StopsAfter (g : Grammar) (table : PredictiveTable) (c : Config) (m : Nat) (o : Outcome) :
    Prop :=
  ∃ c', Matches g table c m c' ∧ c'.step g table = .stop o

/-- A parser that stops has matched some number of literals by then. -/
theorem stops_iff_exists_stopsAfter : Stops g table c o ↔ ∃ m, StopsAfter g table c m o := by
  constructor
  · rintro ⟨fuel, hrun⟩
    induction fuel generalizing c with
    | zero => exact nomatch hrun
    | succ fuel ih =>
      cases hstep : c.step g table with
      | stop o' =>
        rw [run_succ_of_stop hstep] at hrun
        obtain rfl := Option.some.inj hrun
        exact ⟨0, c, .refl c, hstep⟩
      | next c' =>
        rw [run_succ_of_next hstep] at hrun
        obtain ⟨m, c'', hmatches, hstop⟩ := ih hrun
        by_cases hliteral : c.AtLiteral g
        · exact ⟨m + 1, c'', .literal ⟨hstep, hliteral⟩ hmatches, hstop⟩
        · exact ⟨m, c'', .quiet ⟨hstep, hliteral⟩ hmatches, hstop⟩
  · rintro ⟨m, c', hmatches, hstop⟩
    induction hmatches with
    | refl => exact .of_stop hstop
    | quiet hstep _ ih => exact .of_next hstep.1 (ih hstop)
    | literal hstep _ ih => exact .of_next hstep.1 (ih hstop)

/-- The tokens of the literals have been taken. -/
theorem Matches.tokens_eq (hg : g.WellFormed) (h : Matches g table c m c') :
    c'.tokens = TokenStream.pop^[m] c.tokens := by
  induction h with
  | refl => rfl
  | quiet hstep _ ih => rw [ih, (hstep.effect hg).1]
  | literal hstep _ ih =>
    obtain ⟨-, -, -, -, htokens⟩ := hstep.effect hg
    rw [ih, htokens, Function.iterate_succ_apply]

theorem Matches.of_quiet {c'' : Config} (hquiet : Relation.ReflTransGen (QuietStep g table) c c')
    (h : Matches g table c' m c'') : Matches g table c m c'' := by
  induction hquiet using Relation.ReflTransGen.head_induction_on with
  | refl => exact h
  | head hstep _ ih => exact .quiet hstep ih

/-- **A parser with the table of its grammar matches any number of literals, or it stops.** -/
theorem exists_matches_or_stops (hg : g.WellFormed) (htable : g.predictiveTable policy = .ok table)
    (c : Config) (m : Nat) : (∃ c', Matches g table c m c') ∨ ∃ o, Stops g table c o := by
  induction m generalizing c with
  | zero => exact Or.inl ⟨c, .refl c⟩
  | succ m ih =>
    have hrests : Rests g table c := hg.stackRests htable c.tokens c.stack c rfl rfl
    obtain ⟨c', hquiet, ⟨c'', hstep⟩ | ⟨o, hstop⟩⟩ := hrests.exists_match_or_stop
    · rcases ih c'' with ⟨d, hmatches⟩ | ⟨o, hstops⟩
      · exact Or.inl ⟨d, .of_quiet hquiet (.literal hstep hmatches)⟩
      · obtain ⟨n, d, hmatches, hstop⟩ := stops_iff_exists_stopsAfter.mp hstops
        exact Or.inr ⟨o, stops_iff_exists_stopsAfter.mpr
          ⟨n + 1, d, .of_quiet hquiet (.literal hstep hmatches), hstop⟩⟩
    · exact Or.inr ⟨o, stops_iff_exists_stopsAfter.mpr
        ⟨0, c', .of_quiet hquiet (.refl c'), hstop⟩⟩

/-! ## Where the parser stops -/

namespace Config

/-- Every `ascend` entry has its open branch, and every number on the stack is a symbol's. -/
structure Balanced (g : Grammar) (c : Config) : Prop where
  ascends_le : c.stack.count .ascend ≤ c.path.length
  known : ∀ s, .symbol s ∈ c.stack → s < g.symbols.length

/-- Taking an entry that is no `ascend` off the stack. -/
theorem Balanced.tail {entry : StackEntry} {stack : List StackEntry} {path : List OpenBranch}
    {trees : List Tree} {accepted : Bool} {rest : TokenStream}
    (hc : Balanced g ⟨entry :: stack, path, trees, accepted, rest⟩)
    (hpath : c.path.length = path.length) (hstack : c.stack = stack) : c.Balanced g := by
  obtain ⟨hascends, hknown⟩ := hc
  refine ⟨?_, fun s hs => hknown s (List.mem_cons_of_mem _ (hstack ▸ hs))⟩
  rw [hpath, hstack]
  exact (List.count_le_count_cons).trans hascends

/-- **A step keeps the balance.** -/
theorem Balanced.step (hg : g.WellFormed) (hc : c.Balanced g) (h : c.step g table = .next c') :
    c'.Balanced g := by
  have heffect := step_effect hg table c
  rw [h] at heffect
  clear h
  cases heffect with
  | epsilon stack path trees accepted rest h => exact hc.tail length_path_attach stack_attach
  | ascend stack b outer trees accepted rest =>
    obtain ⟨hascends, hknown⟩ := hc
    refine ⟨?_, fun s hs => hknown s (List.mem_cons_of_mem _ ?_)⟩
    · rw [stack_attach, length_path_attach]
      rw [List.count_cons_self] at hascends
      exact Nat.le_of_succ_le_succ hascends
    · rwa [stack_attach] at hs
  | expand p t stack path trees accepted rest hp =>
    obtain ⟨hascends, hknown⟩ := hc
    have hright : (p.right.map StackEntry.ofSymbol).count .ascend = 0 := by
      refine List.count_eq_zero.mpr fun hmem => ?_
      obtain ⟨s, -, hs⟩ := List.mem_map.mp hmem
      exact StackEntry.ofSymbol_ne_ascend hs
    constructor
    · rw [List.count_append, hright, List.count_cons_self, Nat.zero_add]
      exact Nat.succ_le_succ ((List.count_le_count_cons).trans hascends)
    · intro s hs
      rcases List.mem_append.mp hs with hs | hs
      · obtain ⟨r, hr, hentry⟩ := List.mem_map.mp hs
        exact StackEntry.eq_of_ofSymbol_eq_symbol hentry ▸ hg.right_lt hp r hr
      · exact hknown s (List.mem_cons_of_mem _ ((List.mem_cons.mp hs).resolve_left nofun))
  | accept stack trees accepted rest ht => exact hc.tail rfl rfl
  | consume stack path trees accepted rest ht hs =>
    exact hc.tail length_path_attach stack_attach

/-- **The parser stops on an empty stack, without a prediction, or before another literal.** -/
theorem Balanced.stop (hg : g.WellFormed) (hsets : g.sets = .ok sets)
    (htable : g.predictiveTable policy = .ok table) (hc : c.Balanced g)
    (h : c.step g table = .stop o) : c.stack = [] ∨ ∃ s below, c.stack = .symbol s :: below ∧
      (g.isNonTerminal s ∧ (∀ t, c.tokens.lookahead? g = some t → table.get? s t = none) ∨
        g.isLiteral s ∧ c.tokens.lookahead? g ≠ some s) := by
  have heffect := step_effect hg table c
  rw [h] at heffect
  clear h
  cases heffect with
  | finish => exact Or.inl rfl
  | ascendPastRoot stack trees accepted rest =>
    have hascends := hc.ascends_le
    rw [List.count_cons_self] at hascends
    exact absurd hascends (Nat.not_succ_le_zero _)
  | @unknownSymbol s stack path trees accepted rest hs =>
    have hlt := hc.known s List.mem_cons_self
    rw [Grammar.symbol?, List.getElem?_eq_getElem hlt] at hs
    exact absurd hs (Option.some_ne_none _)
  | @unpredicted s name alternatives stack path trees accepted rest hs hcell =>
    have hnonTerminal := Grammar.isNonTerminal_iff.mpr ⟨name, alternatives, hs⟩
    exact Or.inr ⟨s, stack, rfl, Or.inl ⟨hnonTerminal, hcell⟩⟩
  | @unknownProduction s t ordinal stack path trees accepted rest hs ht hcell hp =>
    obtain ⟨p, hmem, hleft, hordinal, -⟩ := (Sets.get?_eq_some_iff hsets htable).mp hcell
    exact absurd hleft (hp p hmem hordinal)
  | @mismatch s stack path trees accepted rest ht hs =>
    exact Or.inr ⟨s, stack, rfl, Or.inr ⟨hs, ht⟩⟩

theorem balanced_initial (hg : g.WellFormed) {x : SymbolId} (hx : g.isNonTerminal x)
    (tokens : TokenStream) : (initial x tokens).Balanced g := by
  refine ⟨Nat.zero_le _, fun s hs => ?_⟩
  rcases List.mem_pair.mp hs with hs | hs
  · exact StackEntry.symbol.inj hs ▸ Grammar.lt_length_of_isNonTerminal hx
  · exact StackEntry.symbol.inj hs ▸ Grammar.lt_length_of_isLiteral hg.isLiteral_endMark

/-- A parser that stops takes no token. -/
theorem tokens_of_stop (hg : g.WellFormed) (h : c.step g table = .stop o) :
    o.tokens = c.tokens := by
  have heffect := step_effect hg table c
  rw [h] at heffect
  clear h
  cases heffect <;> rfl

/-- The token an empty stack finds unexpected is the next one. -/
theorem finish_eq_unexpected {position : Nat} {expected : Expected} {found : String}
    (h : (c.finish g).result = .error (.unexpectedToken position expected found)) :
    position = c.tokens.position ∧ found = c.tokens.peek.kind := by
  dsimp only [finish] at h
  split at h
  · exact nomatch h
  split at h
  · exact nomatch h
  split at h
  · obtain ⟨rfl, -, rfl⟩ := ParseError.unexpectedToken.inj (Except.error.inj h)
    exact ⟨rfl, rfl⟩
  · exact nomatch h

/-- **The token that is reported is the next one.** -/
theorem eq_peek_of_unexpected (hg : g.WellFormed) {position : Nat} {expected : Expected}
    {found : String} (h : c.step g table = .stop o)
    (hresult : o.result = .error (.unexpectedToken position expected found)) :
    position = c.tokens.position ∧ found = c.tokens.peek.kind := by
  have heffect := step_effect hg table c
  rw [h] at heffect
  clear h
  cases heffect with
  | finish => exact finish_eq_unexpected hresult
  | ascendPastRoot => exact nomatch hresult
  | unknownSymbol => exact nomatch hresult
  | unknownProduction => exact nomatch hresult
  | unpredicted =>
    obtain ⟨rfl, -, rfl⟩ := ParseError.unexpectedToken.inj (Except.error.inj hresult)
    exact ⟨rfl, rfl⟩
  | mismatch =>
    obtain ⟨rfl, -, rfl⟩ := ParseError.unexpectedToken.inj (Except.error.inj hresult)
    exact ⟨rfl, rfl⟩

end Config

theorem Matches.balanced (hg : g.WellFormed) (h : Matches g table c m c') (hc : c.Balanced g) :
    c'.Balanced g := by
  induction h with
  | refl => exact hc
  | quiet hstep _ ih => exact ih (hc.step hg hstep.1)
  | literal hstep _ ih => exact ih (hc.step hg hstep.1)

end GrammarTables
