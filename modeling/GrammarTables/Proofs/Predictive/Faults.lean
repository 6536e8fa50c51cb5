import GrammarTables.Proofs.Predictive.Soundness

/-!
# Proofs/Predictive/Faults — an internal error is never the fault of the tokens

Whatever the table, a state of the parser is at one of three stages (`Config.Stage`): the stack is
still what the open branches lack, the end mark at the bottom has been matched, or — in a parse from
the end mark itself — only this bottom is left.  A step goes from stage to stage, and from each of
them the parser can stop with an internal error for one reason only (`InternalError.IsDue`): the
caller's start symbol, or an entry of the table.
-/

namespace GrammarTables

variable {g : Grammar} {table : PredictiveTable} {policy : ConflictPolicy} {x s : SymbolId}
  {c c' : Config} {o : Outcome} {e : InternalError} {trees : List Tree} {path : List OpenBranch}
  {stack : List StackEntry} {tokens : TokenStream}

/-! ## What the stack can still hold -/

/-- The end mark at the bottom or an `ascend` entry is always there. -/
theorem Lacks.stack_ne_nil {inner : List SymbolId} (h : Lacks g x trees inner path stack) :
    stack ≠ [] := by
  rintro rfl
  cases path with
  | nil => simp [Lacks] at h
  | cons b outer => simp [Lacks] at h

/-- No branch is left open at the root. -/
theorem Lacks.path_ne_nil_of_ascend (h : Lacks g x trees [] path (.ascend :: stack)) :
    path ≠ [] := by
  rintro rfl
  obtain ⟨rest, -, hstack⟩ := h
  cases rest <;> simp at hstack

/-- A symbol under construction is the start symbol, or stands in a right side. -/
theorem Lacks.eq_or_exists_mem (h : Lacks g x trees [s] path stack) :
    s = x ∨ ∃ p ∈ g.productions, s ∈ p.right := by
  cases path with
  | nil =>
    obtain ⟨rest, hroot, -⟩ := h
    exact Or.inl (List.mem_singleton.mp (hroot ▸ by simp))
  | cons b outer =>
    obtain ⟨p, hp, rest, below, -, hright, -⟩ := h
    exact Or.inr ⟨p, hp, hright ▸ by simp⟩

/-- At the root only an end mark to start from is under construction as an end mark. -/
theorem Lacks.bottom_of_endMark (h : Lacks g x trees [endMarkId] [] stack) :
    x = endMarkId ∧ stack = [.symbol endMarkId] := by
  obtain ⟨rest, hroot, rfl⟩ := h
  have hlength := congrArg List.length hroot
  simp only [List.length_append, List.length_singleton] at hlength
  obtain rfl : rest = [] := List.length_eq_zero_iff.mp (by omega)
  exact ⟨List.mem_singleton.mp (hroot ▸ by simp) |>.symm, rfl⟩

/-! ## The stages of a parse -/

namespace Config

/-- The stages of a parse from `x`. -/
inductive Stage (g : Grammar) (x : SymbolId) (c : Config) : Prop
  /-- The stack is what the open branches and the root lack. -/
  | matching (hlacks : Lacks g x c.trees [] c.path c.stack)
  /-- The parse started from the end mark, which was taken for the one at the bottom. -/
  | bare (hx : x = endMarkId) (hpath : c.path = []) (hstack : c.stack = [.symbol endMarkId])
  /-- The end mark at the bottom has been matched. -/
  | done (haccepted : c.accepted = true) (hpath : c.path = []) (hstack : c.stack = [])
    (htrees : x = endMarkId ∨ c.trees ≠ [])

theorem stage_initial (x : SymbolId) (tokens : TokenStream) : Stage g x (initial x tokens) :=
  .matching ⟨[x], rfl, rfl⟩

/-- **A step goes from stage to stage.** -/
theorem Stage.step (hg : g.WellFormed) (hc : Stage g x c) (h : c.step g table = .next c') :
    Stage g x c' := by
  have heffect := step_effect hg table c
  rw [h] at heffect
  clear h
  rcases hc with hlacks | ⟨rfl, hpath, hstack⟩ | ⟨-, -, hstack, -⟩
  · cases heffect with
    | epsilon stack path trees accepted rest h =>
      have hinner : Lacks g x trees [epsilonId] path stack := by
        rcases h with rfl | rfl
        · exact hlacks.of_epsilon
        · exact hlacks.of_symbol.resolve_right fun h => absurd h.1 (by decide)
      exact .matching (Lacks.attach hinner)
    | ascend stack b outer trees accepted rest => exact .matching (Lacks.attach hlacks.of_ascend.1)
    | expand p t stack path trees accepted rest hp =>
      refine .matching (Lacks.expand hp (hlacks.of_symbol.resolve_right fun h => ?_))
      exact hg.left_ne_of_isLiteral hp hg.isLiteral_endMark h.1
    | accept stack trees accepted rest ht =>
      rcases hlacks.of_symbol with hinner | ⟨-, -, hstack, htrees⟩
      · obtain ⟨hx, hstack⟩ := hinner.bottom_of_endMark
        exact .bare hx rfl hstack
      · refine .done rfl rfl hstack (Or.inr ?_)
        rintro rfl
        exact List.cons_ne_nil _ _ htrees.symm
    | consume stack path trees accepted rest ht hs hinner =>
      have hinner' := hlacks.of_symbol.resolve_right fun h =>
        hinner.elim (absurd h.1) (absurd h.2.1)
      exact .matching (Lacks.attach (t := .literal _ _) hinner')
  · cases heffect with
    | accept stack trees accepted rest ht =>
      exact .done rfl rfl (List.cons.inj hstack).2 (Or.inl rfl)
    | consume stack path trees accepted rest ht hs hinner =>
      obtain ⟨hentry, -⟩ := List.cons.inj hstack
      exact hinner.elim (absurd (StackEntry.symbol.inj hentry)) (absurd hpath)
    | epsilon stack path trees accepted rest h =>
      obtain ⟨rfl, -⟩ := List.cons.inj hstack
      exact absurd (StackEntry.symbol.inj (h.resolve_left nofun)) (by decide)
    | ascend => exact nomatch hstack
    | expand p t stack path trees accepted rest hp =>
      obtain ⟨hentry, -⟩ := List.cons.inj hstack
      exact absurd (StackEntry.symbol.inj hentry) (hg.left_ne_of_isLiteral hp hg.isLiteral_endMark)
  · obtain ⟨stack, path, trees, accepted, rest⟩ := c
    obtain rfl : stack = [] := hstack
    nomatch heffect

end Config

/-! ## Where the parser gives up -/

/-- What a parse from `x` with this table gives up for: a start symbol that is none, the end mark as
the start symbol, or an entry with the ordinal of no production of its non-terminal. -/
def InternalError.IsDue (g : Grammar) (table : PredictiveTable) (x : SymbolId) :
    InternalError → Prop
  | stackUnderflow => False
  | ascendPastRoot => False
  | unknownSymbol s => s = x ∧ g.symbols.length ≤ x
  | unknownProduction ordinal => ∃ a t, table.get? a t = some ordinal ∧
      ∀ p ∈ g.productions, p.left = a → p.ordinal ≠ ordinal
  | unbalancedTree => x = endMarkId

/-- The outcome, if it is an internal error, has its reason. -/
def Outcome.FaultsAreDue (g : Grammar) (table : PredictiveTable) (x : SymbolId) (o : Outcome) :
    Prop :=
  ∀ e, o.result = .error (.internal e) → e.IsDue g table x

namespace Config

/-- With the bottom matched, only a missing tree is an internal error. -/
theorem finish_eq_internal (haccepted : c.accepted = true) (hpath : c.path = [])
    (h : (c.finish g).result = .error (.internal e)) : e = .unbalancedTree ∧ c.trees = [] := by
  simp only [finish, haccepted, hpath] at h
  split at h
  · next h' => exact absurd h' (by decide)
  split at h
  · next htrees =>
    exact ⟨(ParseError.internal.inj (Except.error.inj h)).symm, by simpa using htrees⟩
  split at h
  · exact nomatch h
  · exact nomatch h

/-- **Where the parser stops, an internal error has its reason.** -/
theorem Stage.stop (hg : g.WellFormed) (hc : Stage g x c) (h : c.step g table = .stop o) :
    o.FaultsAreDue g table x := by
  have heffect := step_effect hg table c
  rw [h] at heffect
  clear h
  intro e he
  cases heffect with
  | finish path trees accepted rest =>
    rcases hc with hlacks | ⟨-, -, hstack⟩ | ⟨haccepted, hpath, -, htrees⟩
    · exact absurd rfl hlacks.stack_ne_nil
    · exact nomatch hstack
    · obtain ⟨rfl, hnone⟩ := finish_eq_internal haccepted hpath he
      exact htrees.resolve_right (absurd hnone)
  | ascendPastRoot stack trees accepted rest =>
    rcases hc with hlacks | ⟨-, -, hstack⟩ | ⟨-, -, hstack, -⟩
    · exact absurd rfl hlacks.path_ne_nil_of_ascend
    · exact nomatch hstack
    · exact nomatch hstack
  | @unknownSymbol s stack path trees accepted rest hs =>
    obtain rfl := ParseError.internal.inj (Except.error.inj he)
    have hlength : g.symbols.length ≤ s := List.getElem?_eq_none_iff.mp hs
    have hknown : s ≠ endMarkId := by
      rintro rfl
      exact nomatch hg.symbol_endMark.symm.trans hs
    rcases hc with hlacks | ⟨-, -, hstack⟩ | ⟨-, -, hstack, -⟩
    · have hinner := hlacks.of_symbol.resolve_right fun h => hknown h.1
      rcases hinner.eq_or_exists_mem with rfl | ⟨p, hp, hmem⟩
      · exact ⟨rfl, hlength⟩
      · exact absurd hlength (Nat.not_le.mpr (hg.right_lt hp s hmem))
    · exact absurd (StackEntry.symbol.inj (List.cons.inj hstack).1) hknown
    · exact nomatch hstack
  | @unknownProduction s t ordinal stack path trees accepted rest hs ht hcell hp =>
    obtain rfl := ParseError.internal.inj (Except.error.inj he)
    exact ⟨s, t, hcell, fun p hmem hleft hordinal => hp p hmem hordinal hleft⟩
  | _ => exact nomatch he

end Config

/-- **A parse stops with an internal error only for a reason.** -/
theorem Stops.faultsAreDue (h : Stops g table (.initial x tokens) o) (hg : g.WellFormed) :
    o.FaultsAreDue g table x := by
  obtain ⟨fuel, hrun⟩ := h
  exact run_induction (fun _ _ hc h => hc.step hg h) (fun _ _ hc h => hc.stop hg h)
    (Config.stage_initial x tokens) hrun

namespace Grammar

/-- The table of a grammar has the ordinals of its productions only. -/
theorem WellFormed.not_isDue (hg : g.WellFormed) (htable : g.predictiveTable policy = .ok table)
    (hx : x < g.symbols.length) (hend : x ≠ endMarkId) : ¬ e.IsDue g table x := by
  obtain ⟨sets, hsets, -⟩ := hg.exists_sets
  intro h
  cases e with
  | stackUnderflow => exact h
  | ascendPastRoot => exact h
  | unknownSymbol s => exact absurd hx (Nat.not_lt.mpr h.2)
  | unknownProduction ordinal =>
    obtain ⟨a, t, hcell, hnone⟩ := h
    obtain ⟨p, hp, hleft, hordinal, -⟩ := (Sets.get?_eq_some_iff hsets htable).mp hcell
    exact hnone p hp hleft hordinal
  | unbalancedTree => exact hend h

/-- **Internal errors never come from the input.**  When a parse with a built grammar stops with
one, the start symbol is out of range or the end mark, or the table has an entry with the ordinal of
no production of its non-terminal; the stack never runs empty too early, and no branch is closed
that is not open.  With the table of the grammar itself, and from any other symbol, there is
none. -/
theorem Built.internalError_isDue (hg : g.Built) (h : Stops g table (.initial x tokens) o) :
    (∀ e, o.result = .error (.internal e) → e.IsDue g table x) ∧
    ((∃ policy, g.predictiveTable policy = .ok table) → x < g.symbols.length → x ≠ endMarkId →
      ∀ e, o.result ≠ .error (.internal e)) := by
  have hdue := h.faultsAreDue hg.wellFormed
  refine ⟨hdue, ?_⟩
  rintro ⟨policy, htable⟩ hx hend e he
  exact hg.wellFormed.not_isDue htable hx hend (hdue e he)

theorem internalError_isDue_nested :
    let tokens := TokenStream.ofList [⟨"a", none⟩]
    let wrong : PredictiveTable := ⟨[(⟨2, 3⟩, 42)]⟩
    let unknown : Outcome := ⟨.error (.internal (.unknownProduction 42)), tokens⟩
    let missing : Outcome := ⟨.error (.unexpectedToken 1 (.terminal "b") "$"), ⟨1, []⟩⟩
    (Stops nested wrong (.initial 2 tokens) unknown ∧
      (InternalError.unknownProduction 42).IsDue nested wrong 2) ∧
    Stops nested nestedTable (.initial 2 tokens) missing ∧
      ∀ e, missing.result ≠ .error (.internal e) := by
  intro tokens wrong unknown missing
  have hunknown : Stops nested wrong (.initial 2 tokens) unknown := ⟨1, rfl⟩
  have hmissing : Stops nested nestedTable (.initial 2 tokens) missing := ⟨6, rfl⟩
  refine ⟨⟨hunknown, (nested_built.internalError_isDue hunknown).1 _ rfl⟩, hmissing, ?_⟩
  exact (nested_built.internalError_isDue hmissing).2 ⟨.failFast, nested_predictiveTable⟩
    (by decide) (by decide)

end Grammar

end GrammarTables
