import GrammarTables.Proofs.Predictive.Matches

/-!
# Proofs/Predictive/Rejection — why the token that is reported did not fit

An unexpected token is reported in three places: there is no prediction for it, it is not the
literal on the stack, or the stack is empty and tokens are left (`Config.Sound.misfit`).  In the
first two the token really differs from what was expected.  In the third the end mark is reported
as expected whatever comes next, and by then an end mark has been matched already: what has been
taken is a whole tree and its end mark (`TokenStream.LeavesOver`).  So with a second end mark behind
the first the report names one kind as both expected and found; this is the only case in which it
does.
-/

namespace GrammarTables

variable {g : Grammar} {table : PredictiveTable} {x : SymbolId} {tokens rest : TokenStream}
  {c : Config} {o : Outcome} {position : Nat} {expected : Expected} {found : String}

/-- Tokens are left behind those of a whole tree of `x` and its end mark. -/
structure TokenStream.LeavesOver (g : Grammar) (x : SymbolId) (tokens rest : TokenStream) :
    Prop where
  exists_tree : ∃ (t : Tree) (bottom : Token), t.symbol = x ∧ t.FollowsRules g ∧
    bottom.kind = Symbol.endMarkName ∧ tokens.rest = t.tokens ++ bottom :: rest.rest
  rest_ne_nil : rest.rest ≠ []

/-- Why a parse of `tokens` from `x` does not take the next token of `rest`. -/
inductive Misfit (g : Grammar) (table : PredictiveTable) (x : SymbolId)
    (tokens rest : TokenStream) : Expected → Prop
  /-- The table has nothing for it. -/
  | unpredicted {s : SymbolId} (hs : g.isNonTerminal s)
    (hcell : ∀ t, g.isLiteral t → g.nameOf t = rest.peek.kind → table.get? s t = none) :
    Misfit g table x tokens rest (.nonTerminal (g.nameOf s))
  /-- It is not of the kind on the stack. -/
  | mismatch {s : SymbolId} (hs : g.isLiteral s) (hkind : rest.peek.kind ≠ g.nameOf s) :
    Misfit g table x tokens rest (.terminal (g.nameOf s))
  /-- The stack is empty. -/
  | leftOver (h : tokens.LeavesOver g x rest) :
    Misfit g table x tokens rest (.terminal (g.nameOf endMarkId))

/-- When an empty stack finds a token unexpected, the end mark at the bottom has been matched, no
branch is open, and there is a token. -/
theorem Config.of_finish_eq_unexpected
    (h : (c.finish g).result = .error (.unexpectedToken position expected found)) :
    c.accepted = true ∧ c.path = [] ∧ c.trees ≠ [] ∧ c.tokens.rest ≠ [] ∧
      expected = .terminal (g.nameOf endMarkId) := by
  dsimp only [finish] at h
  split at h
  · cases h
  next haccepted =>
  split at h
  · cases h
  next hbalanced =>
  split at h
  · next hleft =>
    simp only [Bool.or_eq_true, Bool.not_eq_true', not_or, Bool.not_eq_false,
      List.isEmpty_iff] at haccepted hbalanced
    obtain ⟨-, rfl, -⟩ := ParseError.unexpectedToken.inj (Except.error.inj h)
    refine ⟨haccepted, hbalanced.1, hbalanced.2, fun hnil => ?_, rfl⟩
    rw [TokenStream.isExhausted, hnil] at hleft
    cases hleft
  · cases h

/-- What an empty stack leaves comes after a whole tree and its end mark. -/
theorem Config.Sound.leavesOver (hc : c.Sound g x tokens) (haccepted : c.accepted = true)
    (htrees : c.trees ≠ []) (hrest : c.tokens.rest ≠ []) : tokens.LeavesOver g x c.tokens := by
  obtain ⟨t, bottom, -, hsymbol, hfollows, hbottom, ⟨j, htokens, hj⟩, -⟩ :=
    hc.exists_tree haccepted htrees
  -- No end mark past the end of the stream has been taken while there is a token.
  obtain rfl := hj hrest
  rw [List.replicate_zero, List.append_nil, List.append_assoc, List.singleton_append] at htokens
  exact ⟨⟨t, bottom, hsymbol, hfollows, hbottom, htokens.symm⟩, hrest⟩

/-- **A parser that reports an unexpected token has a reason.** -/
theorem Config.Sound.misfit (hg : g.WellFormed) (hc : c.Sound g x tokens)
    (h : c.step g table = .stop o)
    (hresult : o.result = .error (.unexpectedToken position expected found)) :
    Misfit g table x tokens o.tokens expected := by
  have heffect := step_effect hg table c
  rw [h] at heffect
  clear h
  cases heffect with
  | finish path trees accepted rest =>
    obtain ⟨haccepted, -, htrees, hrest, rfl⟩ := of_finish_eq_unexpected hresult
    exact .leftOver (hc.leavesOver haccepted htrees hrest)
  | ascendPastRoot => exact nomatch hresult
  | unknownSymbol => exact nomatch hresult
  | unknownProduction => exact nomatch hresult
  | @unpredicted s name alternatives stack path trees accepted rest hs hcell =>
    obtain ⟨-, rfl, -⟩ := ParseError.unexpectedToken.inj (Except.error.inj hresult)
    have hname : g.nameOf s = name := Grammar.nameOf_of_symbol? hs
    rw [← hname]
    refine .unpredicted (Grammar.isNonTerminal_iff.mpr ⟨name, alternatives, hs⟩) ?_
    intro t ht hkind
    exact hcell t ((TokenStream.lookahead?_eq_some_iff hg).mpr ⟨ht, hkind.symm⟩)
  | @mismatch s stack path trees accepted rest ht hs =>
    obtain ⟨-, rfl, -⟩ := ParseError.unexpectedToken.inj (Except.error.inj hresult)
    refine .mismatch hs fun hkind => ht ?_
    exact (TokenStream.lookahead?_eq_some_iff hg).mpr ⟨hs, hkind⟩

/-- What holds of an outcome that reports an unexpected token. -/
def Outcome.Explained (g : Grammar) (table : PredictiveTable) (x : SymbolId)
    (tokens : TokenStream) (o : Outcome) : Prop :=
  ∀ position expected found, o.result = .error (.unexpectedToken position expected found) →
    position = o.tokens.position ∧ found = o.tokens.peek.kind ∧
      Misfit g table x tokens o.tokens expected

theorem Stops.explained (hg : g.WellFormed) (h : Stops g table (.initial x tokens) o) :
    o.Explained g table x tokens := by
  obtain ⟨fuel, hrun⟩ := h
  refine run_induction (fun c c' hc h => hc.step hg h) (fun c o hc h => ?_)
    (Config.sound_initial x tokens) hrun
  intro position expected found hresult
  obtain ⟨hposition, hfound⟩ := Config.eq_peek_of_unexpected hg h hresult
  rw [← Config.tokens_of_stop hg h] at hposition hfound
  exact ⟨hposition, hfound, hc.misfit hg h hresult⟩

/-- **An unexpected token is reported where it stands, and it did not fit**, with one exception.
The position is that of the cursor, and the kind found there is that of the next token.  When the
parser was expanding a non-terminal, the table has nothing for it and the literal of this kind.
When it was matching a literal, the kind found is another one, unless the end mark is found behind
a whole tree and its end mark. -/
theorem Grammar.Built.unexpected_token_misfits (hg : g.Built)
    (h : Stops g table (.initial x tokens)
      ⟨.error (.unexpectedToken position expected found), rest⟩) :
    position = rest.position ∧ found = rest.peek.kind ∧
    (∀ name, expected = .nonTerminal name → ∃ s, g.isNonTerminal s ∧ g.nameOf s = name ∧
      ∀ t, g.isLiteral t → g.nameOf t = found → table.get? s t = none) ∧
    ∀ name, expected = .terminal name → found = name →
      name = Symbol.endMarkName ∧ tokens.LeavesOver g x rest := by
  have hwell := hg.wellFormed
  obtain ⟨hposition, hfound, hmisfit⟩ := h.explained hwell position expected found rfl
  refine ⟨hposition, hfound, ?_, ?_⟩
  · rintro name rfl
    rw [hfound]
    cases hmisfit with
    | unpredicted hs hcell => exact ⟨_, hs, rfl, hcell⟩
  · rintro name rfl hname
    cases hmisfit with
    | mismatch hs hkind => exact absurd (hfound.symm.trans hname) hkind
    | leftOver hleft => exact ⟨hwell.nameOf_endMark, hleft⟩

theorem Grammar.unexpected_token_misfits_nested :
    let tokens := TokenStream.ofList [⟨"a", none⟩, ⟨"b", none⟩, ⟨"$", none⟩, ⟨"$", none⟩]
    let rest := TokenStream.mk 3 [⟨"$", none⟩]
    Stops nested nestedTable (.initial 2 tokens)
      ⟨.error (.unexpectedToken 3 (.terminal "$") "$"), rest⟩ ∧
    3 = rest.position ∧ "$" = rest.peek.kind ∧ tokens.LeavesOver nested 2 rest := by
  intro tokens rest
  have h : Stops nested nestedTable (.initial 2 tokens)
    ⟨.error (.unexpectedToken 3 (.terminal "$") "$"), rest⟩ := ⟨10, rfl⟩
  obtain ⟨hposition, hfound, -, hterminal⟩ := nested_built.unexpected_token_misfits h
  exact ⟨h, hposition, hfound, (hterminal "$" rfl rfl).2⟩

/-- **The kind found may be the one expected**: an end mark behind the end mark. -/
theorem Grammar.not_found_ne_expected :
    ¬ ∀ g : Grammar, g.Built → ∀ (table : PredictiveTable) (x : SymbolId)
      (tokens rest : TokenStream) (position : Nat) (name found : String),
      Stops g table (.initial x tokens)
        ⟨.error (.unexpectedToken position (.terminal name) found), rest⟩ → found ≠ name := by
  intro h
  have hstops : Stops nested nestedTable
      (.initial 2 (.ofList [⟨"a", none⟩, ⟨"b", none⟩, ⟨"$", none⟩, ⟨"$", none⟩]))
      ⟨.error (.unexpectedToken 3 (.terminal "$") "$"), ⟨3, [⟨"$", none⟩]⟩⟩ := ⟨10, rfl⟩
  exact h nested nested_built nestedTable 2 _ _ 3 "$" "$" hstops rfl

end GrammarTables
