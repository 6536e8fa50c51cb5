import GrammarTables.Predictive.Machine
import GrammarTables.Proofs.Grammar.WellFormed
import Mathlib.Tactic.ByContra

/-!
# Proofs/Predictive/Run — what a step can do, and what a run keeps

`Config.Effect` lists what one step leads to, with all that the machine has checked by then; it is
the only place where a step is taken apart (`Config.step_effect`).  A property that the effects keep
holds along a run (`run_induction`).

`Stops` speaks of a run without the number of its steps.
-/

namespace GrammarTables

/-! ## Runs -/

section Run

variable {g : Grammar} {table : PredictiveTable} {c c' : Config} {o o' : Outcome}

/-- The parser stops with `o`, after whatever number of steps. -/
def Stops (g : Grammar) (table : PredictiveTable) (c : Config) (o : Outcome) : Prop :=
  ∃ fuel, run g table fuel c = some o

/-- A step that goes on costs one unit of fuel, and the run goes on from the next state. -/
theorem run_succ_of_next {fuel : Nat} (h : c.step g table = .next c') :
    run g table (fuel + 1) c = run g table fuel c' := by
  rw [run, h]

theorem run_succ_of_stop {fuel : Nat} (h : c.step g table = .stop o) :
    run g table (fuel + 1) c = some o := by
  rw [run, h]

/-- What the next state stops with, the state before it stops with too: one more step is enough. -/
theorem Stops.of_next (h : c.step g table = .next c') (hc : Stops g table c' o) :
    Stops g table c o := by
  obtain ⟨fuel, hfuel⟩ := hc
  exact ⟨fuel + 1, (run_succ_of_next h).trans hfuel⟩

/-- A state whose step stops has stopped after that one step. -/
theorem Stops.of_stop (h : c.step g table = .stop o) : Stops g table c o :=
  ⟨1, run_succ_of_stop h⟩

/-- A run that stops does so with any larger number of steps. -/
theorem run_mono {m n : Nat} (h : run g table m c = some o) (hmn : m ≤ n) :
    run g table n c = some o := by
  induction m generalizing n c with
  | zero => exact nomatch h
  | succ m ih =>
    obtain ⟨n, rfl⟩ : ∃ k, n = k + 1 := Nat.exists_eq_add_one_of_ne_zero (by omega)
    cases hstep : c.step g table with
    | next c' =>
      rw [run_succ_of_next hstep] at h ⊢
      exact ih h (Nat.le_of_succ_le_succ hmn)
    | stop o' => rwa [run_succ_of_stop hstep] at h ⊢

/-- A run stops in one way only. -/
theorem Stops.unique (h : Stops g table c o) (h' : Stops g table c o') : o = o' := by
  obtain ⟨m, hm⟩ := h
  obtain ⟨n, hn⟩ := h'
  rcases Nat.le_total m n with hle | hle
  · exact Option.some.inj ((run_mono hm hle).symm.trans hn)
  · exact Option.some.inj (hm.symm.trans (run_mono hn hle))

/-- **What every step keeps holds when a run stops.** -/
theorem run_induction {motive : Config → Prop} {goal : Outcome → Prop} {fuel : Nat}
    (next : ∀ c c', motive c → c.step g table = .next c' → motive c')
    (stop : ∀ c o, motive c → c.step g table = .stop o → goal o) (hc : motive c)
    (h : run g table fuel c = some o) : goal o := by
  induction fuel generalizing c with
  | zero => exact nomatch h
  | succ fuel ih =>
    cases hstep : c.step g table with
    | next c' =>
      rw [run_succ_of_next hstep] at h
      exact ih (next c c' hc hstep) h
    | stop o' =>
      rw [run_succ_of_stop hstep] at h
      exact Option.some.inj h ▸ stop c o' hc hstep

end Run

/-! ## Steps -/

/-- The next token is named as the literal that it is the lookahead for. -/
theorem TokenStream.kind_peek_of_lookahead? {g : Grammar} {tokens : TokenStream} {t : SymbolId}
    (h : tokens.lookahead? g = some t) : g.isLiteral t ∧ tokens.peek.kind = g.nameOf t := by
  obtain ⟨hindex, hliteral⟩ := Option.filter_eq_some_iff.mp h
  exact ⟨hliteral, (Grammar.nameOf_eq_of_index? hindex hliteral).symm⟩

namespace Config

variable {g : Grammar} {table : PredictiveTable} {stack : List StackEntry}
  {path outer : List OpenBranch} {trees : List Tree} {accepted : Bool} {tokens : TokenStream}
  {s : SymbolId} {p : Production} {c : Config} {t : Tree}

/-! ### A new child touches the trees only -/

/-- A finished tree joins the innermost open branch, or the finished trees when none is open.  The
stack has been popped before, and is left as it is. -/
@[simp]
theorem stack_attach : (c.attach t).stack = c.stack := by
  obtain ⟨stack, path, trees, accepted, tokens⟩ := c
  cases path <;> rfl

@[simp]
theorem length_path_attach : (c.attach t).path.length = c.path.length := by
  obtain ⟨stack, path, trees, accepted, tokens⟩ := c
  cases path <;> rfl

/-- Whether the input has been accepted is decided by the end mark below the start symbol, and this
joins no tree. -/
@[simp]
theorem accepted_attach : (c.attach t).accepted = c.accepted := by
  obtain ⟨stack, path, trees, accepted, tokens⟩ := c
  cases path <;> rfl

@[simp]
theorem tokens_attach : (c.attach t).tokens = c.tokens := by
  obtain ⟨stack, path, trees, accepted, tokens⟩ := c
  cases path <;> rfl

/-! ### The effects -/

/-- What one step of the parser leads to. -/
inductive Effect (g : Grammar) (table : PredictiveTable) : Config → Progress → Prop
  /-- The stack is empty. -/
  | finish (path : List OpenBranch) (trees : List Tree) (accepted : Bool) (tokens : TokenStream) :
    Effect g table ⟨[], path, trees, accepted, tokens⟩
      (.stop (Config.finish ⟨[], path, trees, accepted, tokens⟩ g))
  /-- An empty string becomes a leaf. -/
  | epsilon {entry : StackEntry} (stack : List StackEntry) (path : List OpenBranch)
    (trees : List Tree) (accepted : Bool) (tokens : TokenStream)
    (h : entry = .epsilon ∨ entry = .symbol epsilonId) :
    Effect g table ⟨entry :: stack, path, trees, accepted, tokens⟩
      (.next (attach ⟨stack, path, trees, accepted, tokens⟩ .epsilon))
  /-- The innermost branch is closed. -/
  | ascend (stack : List StackEntry) (b : OpenBranch) (outer : List OpenBranch) (trees : List Tree)
    (accepted : Bool) (tokens : TokenStream) :
    Effect g table ⟨.ascend :: stack, b :: outer, trees, accepted, tokens⟩
      (.next (attach ⟨stack, outer, trees, accepted, tokens⟩ (.branch b.symbol b.children)))
  | ascendPastRoot (stack : List StackEntry) (trees : List Tree) (accepted : Bool)
    (tokens : TokenStream) :
    Effect g table ⟨.ascend :: stack, [], trees, accepted, tokens⟩
      (.stop ⟨.error (.internal .ascendPastRoot), tokens⟩)
  | unknownSymbol {s : SymbolId} (stack : List StackEntry) (path : List OpenBranch)
    (trees : List Tree) (accepted : Bool) (tokens : TokenStream) (hs : g.symbol? s = none) :
    Effect g table ⟨.symbol s :: stack, path, trees, accepted, tokens⟩
      (.stop ⟨.error (.internal (.unknownSymbol s)), tokens⟩)
  /-- A branch is opened for the left side of a production. -/
  | expand (p : Production) (t : SymbolId) (stack : List StackEntry) (path : List OpenBranch)
    (trees : List Tree) (accepted : Bool) (tokens : TokenStream) (hp : p ∈ g.productions)
    (ht : tokens.lookahead? g = some t) (hcell : table.get? p.left t = some p.ordinal) :
    Effect g table ⟨.symbol p.left :: stack, path, trees, accepted, tokens⟩
      (.next ⟨p.right.map StackEntry.ofSymbol ++ .ascend :: stack, ⟨p.left, []⟩ :: path, trees,
        accepted, tokens⟩)
  /-- The table has nothing for the lookahead. -/
  | unpredicted {s : SymbolId} {name : String} {alternatives : List (List SymbolId)}
    (stack : List StackEntry) (path : List OpenBranch) (trees : List Tree) (accepted : Bool)
    (tokens : TokenStream) (hs : g.symbol? s = some (.nonTerminal name alternatives))
    (hcell : ∀ t, tokens.lookahead? g = some t → table.get? s t = none) :
    Effect g table ⟨.symbol s :: stack, path, trees, accepted, tokens⟩
      (.stop ⟨.error (tokens.unexpected (.nonTerminal name)), tokens⟩)
  | unknownProduction {s t : SymbolId} {ordinal : Nat} (stack : List StackEntry)
    (path : List OpenBranch) (trees : List Tree) (accepted : Bool) (tokens : TokenStream)
    (hs : g.isNonTerminal s) (ht : tokens.lookahead? g = some t)
    (hcell : table.get? s t = some ordinal)
    (hp : ∀ p ∈ g.productions, p.ordinal = ordinal → p.left ≠ s) :
    Effect g table ⟨.symbol s :: stack, path, trees, accepted, tokens⟩
      (.stop ⟨.error (.internal (.unknownProduction ordinal)), tokens⟩)
  /-- The end mark at the bottom of the stack is matched. -/
  | accept (stack : List StackEntry) (trees : List Tree) (accepted : Bool) (tokens : TokenStream)
    (ht : tokens.lookahead? g = some endMarkId) :
    Effect g table ⟨.symbol endMarkId :: stack, [], trees, accepted, tokens⟩
      (.next ⟨stack, [], trees, true, tokens.pop⟩)
  /-- Any other literal becomes a leaf. -/
  | consume {s : SymbolId} (stack : List StackEntry) (path : List OpenBranch) (trees : List Tree)
    (accepted : Bool) (tokens : TokenStream) (ht : tokens.lookahead? g = some s)
    (hs : g.isLiteral s) (hinner : s ≠ endMarkId ∨ path ≠ []) :
    Effect g table ⟨.symbol s :: stack, path, trees, accepted, tokens⟩
      (.next (attach ⟨stack, path, trees, accepted, tokens.pop⟩ (.literal s tokens.peek)))
  | mismatch {s : SymbolId} (stack : List StackEntry) (path : List OpenBranch) (trees : List Tree)
    (accepted : Bool) (tokens : TokenStream) (ht : tokens.lookahead? g ≠ some s)
    (hs : g.isLiteral s) :
    Effect g table ⟨.symbol s :: stack, path, trees, accepted, tokens⟩
      (.stop ⟨.error (tokens.unexpected (.terminal (g.nameOf s))), tokens⟩)

/-- A literal on the stack is accepted at the bottom if it is the end mark, becomes a leaf in any
other place, and is refused when it is not the lookahead. -/
theorem consume_effect (hs : g.isLiteral s) :
    Effect g table ⟨.symbol s :: stack, path, trees, accepted, tokens⟩
      (consume ⟨stack, path, trees, accepted, tokens⟩ g s) := by
  rw [consume]
  split
  · next ht =>
    split
    · next hbottom =>
      obtain ⟨hend, hpath⟩ := Bool.and_eq_true_iff.mp hbottom
      obtain rfl := of_decide_eq_true hend
      obtain rfl : path = [] := List.isEmpty_iff.mp hpath
      exact .accept stack trees accepted tokens ht
    · next hinner =>
      refine .consume stack path trees accepted tokens ht hs ?_
      by_contra hbottom
      refine hinner (Bool.and_eq_true_iff.mpr ⟨decide_eq_true ?_, List.isEmpty_iff.mpr ?_⟩)
      · exact by_contra fun h => hbottom (Or.inl h)
      · exact by_contra fun h => hbottom (Or.inr h)
  · next ht => exact .mismatch stack path trees accepted tokens ht hs

/-- A non-terminal on the stack opens a branch for the production in its cell, and is refused when
the cell is empty.  The grammar is well formed, so a production is found by its ordinal; the one
fault left is a cell whose ordinal belongs to no production of the non-terminal. -/
theorem expand_effect (hg : g.WellFormed) {name : String} {alternatives : List (List SymbolId)}
    (hs : g.symbol? s = some (.nonTerminal name alternatives)) :
    Effect g table ⟨.symbol s :: stack, path, trees, accepted, tokens⟩
      (expand ⟨stack, path, trees, accepted, tokens⟩ g table s name) := by
  rw [expand]
  split
  · next hcell =>
    exact .unpredicted stack path trees accepted tokens hs (Option.bind_eq_none_iff.mp hcell)
  · next ordinal hcell =>
    obtain ⟨t, ht, hcell⟩ := Option.bind_eq_some_iff.mp hcell
    split
    · next hnone =>
      refine .unknownProduction stack path trees accepted tokens ?_ ht hcell ?_
      · exact Grammar.isNonTerminal_iff.mpr ⟨name, alternatives, hs⟩
      · intro p hp hordinal hleft
        rw [← hordinal, hg.production?_ordinal hp, Option.filter_some,
          if_pos (decide_eq_true hleft)] at hnone
        exact nomatch hnone
    · next p hp =>
      obtain ⟨hp, hleft⟩ := Option.filter_eq_some_iff.mp hp
      obtain ⟨hmem, rfl⟩ := Grammar.mem_of_production? hp
      obtain rfl := of_decide_eq_true hleft
      exact .expand p t stack path trees accepted tokens hmem ht hcell

/-- **A step does one of these.** -/
theorem step_effect (hg : g.WellFormed) (table : PredictiveTable) (c : Config) :
    Effect g table c (c.step g table) := by
  obtain ⟨stack, path, trees, accepted, tokens⟩ := c
  cases stack with
  | nil => exact .finish path trees accepted tokens
  | cons entry stack =>
    cases entry with
    | epsilon => exact .epsilon stack path trees accepted tokens (Or.inl rfl)
    | ascend =>
      cases path with
      | nil => exact .ascendPastRoot stack trees accepted tokens
      | cons b outer => exact .ascend stack b outer trees accepted tokens
    | symbol s =>
      rw [step]
      dsimp only
      cases hs : g.symbol? s with
      | none => exact .unknownSymbol stack path trees accepted tokens hs
      | some symbol =>
        cases symbol with
        | epsilon =>
          obtain rfl := hg.eq_of_symbol_eq hs hg.symbol_epsilon
          exact .epsilon stack path trees accepted tokens (Or.inr rfl)
        | nonTerminal name alternatives => exact expand_effect hg hs
        | endMark => exact consume_effect (by rw [Grammar.isLiteral, hs]; rfl)
        | terminal name => exact consume_effect (by rw [Grammar.isLiteral, hs]; rfl)

/-! ### Steps that succeed -/

/-- The empty string in a right side takes no token, and leaves a leaf of its own. -/
theorem step_ofSymbol_epsilon : step g table ⟨.ofSymbol epsilonId :: stack, path, trees, accepted,
    tokens⟩ = .next (attach ⟨stack, path, trees, accepted, tokens⟩ .epsilon) :=
  rfl

/-- The mark above a right side closes the branch that was opened for it. -/
theorem step_ascend {b : OpenBranch} :
    step g table ⟨.ascend :: stack, b :: outer, trees, accepted, tokens⟩ =
      .next (attach ⟨stack, outer, trees, accepted, tokens⟩ (.branch b.symbol b.children)) :=
  rfl

/-- Terminals and the end mark are treated alike, as literals that have to be the lookahead. -/
theorem step_of_isLiteral (hs : g.isLiteral s) :
    step g table ⟨.symbol s :: stack, path, trees, accepted, tokens⟩ =
      consume ⟨stack, path, trees, accepted, tokens⟩ g s := by
  rw [Grammar.isLiteral] at hs
  rw [step]
  dsimp only
  cases hsymbol : g.symbol? s with
  | none => simp [hsymbol] at hs
  | some symbol =>
    rw [hsymbol] at hs
    cases symbol with
    | terminal => rfl
    | endMark => rfl
    | epsilon => simp [Symbol.isLiteral] at hs
    | nonTerminal => simp [Symbol.isLiteral] at hs

/-- A literal that is the lookahead becomes a leaf with the token, an end mark inside a branch
too. -/
theorem step_literal (hs : g.isLiteral s) (ht : tokens.lookahead? g = some s)
    (hinner : s ≠ endMarkId ∨ path ≠ []) :
    step g table ⟨.symbol s :: stack, path, trees, accepted, tokens⟩ =
      .next (attach ⟨stack, path, trees, accepted, tokens.pop⟩ (.literal s tokens.peek)) := by
  rw [step_of_isLiteral hs, consume, if_pos ht, if_neg]
  intro hbottom
  obtain ⟨hend, hpath⟩ := Bool.and_eq_true_iff.mp hbottom
  exact hinner.elim (absurd (of_decide_eq_true hend)) (absurd (List.isEmpty_iff.mp hpath))

/-- The end mark outside all branches is the one below the start symbol: it takes its token and
leaves no leaf. -/
theorem step_accept (hg : g.WellFormed) (ht : tokens.lookahead? g = some endMarkId) :
    step g table ⟨.symbol endMarkId :: stack, [], trees, accepted, tokens⟩ =
      .next ⟨stack, [], trees, true, tokens.pop⟩ := by
  rw [step_of_isLiteral hg.isLiteral_endMark, consume, if_pos ht]
  rfl

/-- **A production in the cell of the lookahead is expanded.** With `step_literal` this is what a
run that builds a given tree is put together from. -/
theorem step_expand (hg : g.WellFormed) {t : SymbolId} (hp : p ∈ g.productions)
    (ht : tokens.lookahead? g = some t) (hcell : table.get? p.left t = some p.ordinal) :
    step g table ⟨.symbol p.left :: stack, path, trees, accepted, tokens⟩ =
      .next ⟨p.right.map StackEntry.ofSymbol ++ .ascend :: stack, ⟨p.left, []⟩ :: path, trees,
        accepted, tokens⟩ := by
  obtain ⟨name, alternatives, hs⟩ := Grammar.isNonTerminal_iff.mp (hg.isNonTerminal_left hp)
  rw [step]
  simp only [hs]
  rw [expand, ht, Option.bind_some, hcell]
  dsimp only
  rw [hg.production?_ordinal hp, Option.filter_some, if_pos (decide_eq_true rfl)]

end Config

end GrammarTables
