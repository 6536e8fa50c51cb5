import GrammarTables.Proofs.Analysis.Renaming
import GrammarTables.Proofs.Predictive.Run
import GrammarTables.Proofs.Predictive.Table
import GrammarTables.Report

/-!
# Proofs/Predictive/Renaming — a renamed grammar has the same parses

Two halves.

* **Tables** (`exists_predictiveTable`).  A renaming has a table when the grammar has one, with the
  same ordinals in the renamed cells.
* **Parses** (`step_rename`, `parse_rename`).  The parser of the renaming does the renamed step in
  the renamed state.  So it stops when the parser of the grammar does, with the same error or with
  the renamed tree, and this is printed as the tree is.
-/

namespace GrammarTables

/-! ## States in other numbers -/

namespace Tree

mutual

/-- The tree in other numbers. -/
def rename (φ : SymbolId → SymbolId) : Tree → Tree
  | epsilon => epsilon
  | literal symbol token => literal (φ symbol) token
  | branch symbol children => branch (φ symbol) (renameForest φ children)

/-- Several trees in other numbers. -/
def renameForest (φ : SymbolId → SymbolId) : List Tree → List Tree
  | [] => []
  | t :: ts => rename φ t :: renameForest φ ts

end

/-- The recursion through the children is a map. -/
theorem renameForest_eq_map (φ : SymbolId → SymbolId) (ts : List Tree) :
    renameForest φ ts = ts.map (rename φ) := by
  induction ts with
  | nil => rfl
  | cons t ts ih => rw [renameForest, ih, List.map_cons]

end Tree

/-- The parse tree in other numbers. -/
def ParseTree.rename (φ : SymbolId → SymbolId) (t : ParseTree) : ParseTree :=
  ⟨Tree.renameForest φ t.trees⟩

/-- The entry in other numbers. -/
def StackEntry.rename (φ : SymbolId → SymbolId) : StackEntry → StackEntry
  | symbol s => symbol (φ s)
  | entry => entry

/-- The branch in other numbers. -/
def OpenBranch.rename (φ : SymbolId → SymbolId) (b : OpenBranch) : OpenBranch :=
  ⟨φ b.symbol, Tree.renameForest φ b.children⟩

/-- The state in other numbers. -/
def Config.rename (φ : SymbolId → SymbolId) (c : Config) : Config :=
  { c with
    stack := c.stack.map (StackEntry.rename φ)
    path := c.path.map (OpenBranch.rename φ)
    trees := Tree.renameForest φ c.trees }

/-- The outcome with its tree in other numbers; no error has a number in it that a renaming
changes. -/
def Outcome.rename (φ : SymbolId → SymbolId) (o : Outcome) : Outcome :=
  ⟨o.result.map (ParseTree.rename φ), o.tokens⟩

/-- What a step leads to, in other numbers. -/
def Progress.rename (φ : SymbolId → SymbolId) : Progress → Progress
  | next c => next (c.rename φ)
  | stop o => stop (o.rename φ)

/-- The cells of `table'` have the ordinals that the cells of `table` have. -/
def PredictiveTable.Corresponds (φ : SymbolId → SymbolId) (table table' : PredictiveTable) : Prop :=
  ∀ s t, table'.get? (φ s) (φ t) = table.get? s t

variable {φ : Equiv.Perm SymbolId} {g g' : Grammar} {table table' : PredictiveTable}
  {policy policy' : ConflictPolicy} {tokens : TokenStream} {c : Config}
  {escape : String → String}

namespace Renames

variable (h : Renames φ g g')

include h

/-! ## Tables -/

/-- A lookahead of a renamed production is the renamed lookahead: the sets are exact, and
derivations do not depend on the numbers. -/
theorem mem_predict_of_production {sets sets' : Sets} (hs : sets.Settled g) (hs' : sets'.Settled g')
    {p : Production} (hp : p ∈ g.productions) {t : SymbolId} :
    t ∈ sets'.predict g' (p.rename φ).left (p.rename φ).right ↔
      φ.symm t ∈ sets.predict g p.left p.right := by
  rw [← h.mem_predict_iff hs hs' (h.wellFormed.isNonTerminal_left hp), Equiv.apply_symm_apply]
  rfl

/-- **There is a table when there is one for the grammar.** -/
theorem exists_predictiveTable (htable : g.predictiveTable policy = .ok table) :
    ∃ table', g'.predictiveTable policy = .ok table' := by
  obtain ⟨sets, hsets, hs⟩ := h.wellFormed.exists_sets
  obtain ⟨sets', hsets', hs'⟩ := h.wellFormed'.exists_sets
  have hagree : ∀ entry ∈ sets'.predictions g', ∀ entry' ∈ sets'.predictions g',
      entry.1 = entry'.1 → entry.2 = entry'.2 := by
    rintro ⟨cell, ordinal⟩ hmem ⟨cell', ordinal'⟩ hmem' rfl
    obtain ⟨_, hp', hpleft, rfl, ht⟩ := Sets.mem_predictions.mp hmem
    obtain ⟨_, hq', hqleft, rfl, ht'⟩ := Sets.mem_predictions.mp hmem'
    obtain ⟨p, hp, rfl⟩ := h.exists_of_mem_productions hp'
    obtain ⟨q, hq, rfl⟩ := h.exists_of_mem_productions hq'
    have hleft : p.left = q.left := φ.injective (hpleft.trans hqleft.symm)
    have hget := Sets.get?_of_mem_predict hsets htable hp
      ((h.mem_predict_of_production hs hs' hp).mp ht)
    have hget' := Sets.get?_of_mem_predict hsets htable hq
      ((h.mem_predict_of_production hs hs' hq).mp ht')
    rw [hleft] at hget
    exact Option.some.inj (hget.symm.trans hget')
  obtain ⟨table', hfill⟩ : ∃ table', fill g' policy (sets'.predictions g') .empty [] = .ok table' :=
    exists_fill PredictiveTable.isMap_empty hagree fun _ _ _ hempty => nomatch hempty
  exact ⟨table', (Sets.predictiveTable_eq_ok_iff hsets').mpr hfill⟩

/-- The inverse of a renaming is a renaming, so one direction is enough. -/
theorem exists_predictiveTable_iff : (∃ table', g'.predictiveTable policy = .ok table') ↔
    ∃ table, g.predictiveTable policy = .ok table :=
  ⟨fun ⟨_, htable'⟩ => h.symm.exists_predictiveTable htable',
    fun ⟨_, htable⟩ => h.exists_predictiveTable htable⟩

/-- **Its cells have the same ordinals.** -/
theorem corresponds (htable : g.predictiveTable policy = .ok table)
    (htable' : g'.predictiveTable policy' = .ok table') : table.Corresponds φ table' := by
  obtain ⟨sets, hsets, hs⟩ := h.wellFormed.exists_sets
  obtain ⟨sets', hsets', hs'⟩ := h.wellFormed'.exists_sets
  intro s t
  refine Option.ext fun ordinal => ?_
  rw [Sets.get?_eq_some_iff hsets htable, Sets.get?_eq_some_iff hsets' htable']
  constructor
  · rintro ⟨_, hmem, hleft, rfl, ht⟩
    obtain ⟨p, hp, rfl⟩ := h.exists_of_mem_productions hmem
    refine ⟨p, hp, φ.injective hleft, rfl, ?_⟩
    simpa using (h.mem_predict_of_production hs hs' hp).mp ht
  · rintro ⟨p, hp, rfl, rfl, ht⟩
    refine ⟨p.rename φ, h.mem_productions hp, rfl, rfl, ?_⟩
    exact (h.mem_predict_of_production hs hs' hp).mpr (by simpa using ht)

/-- The lookahead is renamed with the names of the grammar. -/
theorem lookahead?_eq (tokens : TokenStream) :
    tokens.lookahead? g' = (tokens.lookahead? g).map φ := by
  rw [TokenStream.lookahead?, TokenStream.lookahead?, h.index?_eq]
  cases g.index? tokens.peek.kind with
  | none => rfl
  | some s => simp [Option.filter, h.isLiteral_eq]

end Renames

/-! ## Steps -/

section Attach

variable (φ : SymbolId → SymbolId)

/-- Finished trees keep their order when they are renamed. -/
theorem Tree.renameForest_append (ts us : List Tree) :
    renameForest φ (ts ++ us) = renameForest φ ts ++ renameForest φ us := by
  simp [renameForest_eq_map]

/-- A renamed tree joins the renamed state in the place where the tree joins the state. -/
theorem Config.attach_rename (c : Config) (t : Tree) :
    (c.rename φ).attach (t.rename φ) = (c.attach t).rename φ := by
  obtain ⟨stack, path, trees, accepted, tokens⟩ := c
  cases path with
  | nil => simp [attach, rename, Tree.renameForest_append, Tree.renameForest]
  | cons b outer =>
    simp [attach, rename, OpenBranch.rename, Tree.renameForest_append, Tree.renameForest]

/-- Closing a branch looks at the open branches only and not at the numbers of symbols. -/
theorem Config.ascend_rename (c : Config) : (c.rename φ).ascend = (c.ascend).rename φ := by
  obtain ⟨stack, path, trees, accepted, tokens⟩ := c
  cases path with
  | nil => rfl
  | cons b outer =>
    exact congrArg Progress.next (attach_rename φ ⟨stack, outer, trees, accepted, tokens⟩
      (.branch b.symbol b.children))

end Attach

namespace Renames

variable (h : Renames φ g g')

include h

/-- The empty string keeps its number, so it alone becomes an entry that takes no token. -/
theorem ofSymbol_eq (s : SymbolId) :
    StackEntry.ofSymbol (φ s) = (StackEntry.ofSymbol s).rename φ := by
  rw [StackEntry.ofSymbol, StackEntry.ofSymbol]
  by_cases hs : s = epsilonId
  · rw [if_pos hs, if_pos (h.apply_eq_epsilon_iff.mpr hs)]
    rfl
  · rw [if_neg hs, if_neg (mt h.apply_eq_epsilon_iff.mp hs)]
    rfl

/-- A non-terminal is expanded alike: its cell has the same ordinal, and the production with this
ordinal is the renamed one.  A fault names the same non-terminal and the same token. -/
theorem expand_rename (htables : table.Corresponds φ table') (c : Config) (s : SymbolId)
    (name : String) :
    (c.rename φ).expand g' table' (φ s) name = (c.expand g table s name).rename φ := by
  have hcell : ((c.rename φ).tokens.lookahead? g').bind (table'.get? (φ s)) =
      (c.tokens.lookahead? g).bind (table.get? s) := by
    rw [h.lookahead?_eq, Option.bind_map]
    exact congrArg (Option.bind _) (funext (htables s))
  rw [Config.expand, Config.expand, hcell]
  cases (c.tokens.lookahead? g).bind (table.get? s) with
  | none => rfl
  | some ordinal =>
    have hproduction : ((g'.production? ordinal).filter fun p => p.left = φ s) =
        ((g.production? ordinal).filter fun p => p.left = s).map (Production.rename φ) := by
      rw [h.production?_eq]
      cases g.production? ordinal with
      | none => rfl
      | some p => simp [Option.filter, Production.rename]
    simp only [hproduction]
    cases (g.production? ordinal).filter fun p => p.left = s with
    | none => rfl
    | some p =>
      have hright : (p.rename φ).right.map StackEntry.ofSymbol =
          (p.right.map StackEntry.ofSymbol).map (StackEntry.rename φ) := by
        rw [Production.rename, List.map_map, List.map_map]
        exact List.map_congr_left fun s _ => h.ofSymbol_eq s
      simp [Progress.rename, Config.rename, OpenBranch.rename, StackEntry.rename,
        Tree.renameForest, hright]

/-- A literal is taken or refused alike, since the lookahead is renamed and the end mark keeps its
number.  A refusal words the name of the literal, which it keeps too. -/
theorem consume_rename (c : Config) (s : SymbolId) :
    (c.rename φ).consume g' (φ s) = (c.consume g s).rename φ := by
  have hlookahead : (c.rename φ).tokens.lookahead? g' = some (φ s) ↔
      c.tokens.lookahead? g = some s := by
    rw [h.lookahead?_eq, ← Option.map_some, Option.map_inj_right fun _ _ heq => φ.injective heq]
    rfl
  have hbottom : (φ s = endMarkId && (c.rename φ).path.isEmpty) =
      (s = endMarkId && c.path.isEmpty) := by
    simp [h.apply_eq_endMark_iff, Config.rename]
  rw [Config.consume, Config.consume]
  by_cases hmatch : c.tokens.lookahead? g = some s
  · rw [if_pos hmatch, if_pos (hlookahead.mpr hmatch)]
    simp only [hbottom]
    split
    · rfl
    · exact congrArg Progress.next
        (Config.attach_rename φ { c with tokens := c.tokens.pop } (.literal s c.tokens.peek))
  · rw [if_neg hmatch, if_neg (mt hlookahead.mp hmatch), h.nameOf_eq]
    rfl

/-- What stops a run with an empty stack depends on the names of the end mark and the token, and on
how many branches and trees there are. -/
theorem finish_rename (c : Config) : (c.rename φ).finish g' = (c.finish g).rename φ := by
  obtain ⟨stack, path, trees, accepted, tokens⟩ := c
  have hname : g'.nameOf endMarkId = g.nameOf endMarkId := by
    rw [← h.nameOf_eq endMarkId, h.apply_endMark]
  have htrees : (Tree.renameForest φ trees).isEmpty = trees.isEmpty := by
    rw [Tree.renameForest_eq_map, List.isEmpty_map]
  simp only [Config.finish, Config.rename, Outcome.rename, htrees, hname, List.isEmpty_map,
    apply_ite (Except.map (ParseTree.rename φ))]
  rfl

/-- **The renamed state does the renamed step.** -/
theorem step_rename (htables : table.Corresponds φ table') (c : Config) :
    (c.rename φ).step g' table' = (c.step g table).rename φ := by
  obtain ⟨stack, path, trees, accepted, tokens⟩ := c
  cases stack with
  | nil => exact congrArg Progress.stop (h.finish_rename ⟨[], path, trees, accepted, tokens⟩)
  | cons entry stack =>
    cases entry with
    | ascend => exact Config.ascend_rename φ ⟨stack, path, trees, accepted, tokens⟩
    | epsilon =>
      exact congrArg Progress.next
        (Config.attach_rename φ ⟨stack, path, trees, accepted, tokens⟩ .epsilon)
    | symbol s =>
      have hsymbol := h.symbol?_eq s
      simp only [Config.rename, List.map_cons, StackEntry.rename, Config.step]
      cases hs : g.symbol? s with
      | none =>
        rw [hs] at hsymbol
        rw [hsymbol, h.fixes s (symbol?_eq_none_iff.mp hs)]
        rfl
      | some symbol =>
        rw [hs] at hsymbol
        rw [hsymbol]
        cases symbol with
        | epsilon =>
          exact congrArg Progress.next
            (Config.attach_rename φ ⟨stack, path, trees, accepted, tokens⟩ .epsilon)
        | nonTerminal name alternatives =>
          exact h.expand_rename htables ⟨stack, path, trees, accepted, tokens⟩ s name
        | _ => exact h.consume_rename ⟨stack, path, trees, accepted, tokens⟩ s

/-! ## Runs -/

/-- By induction on the fuel: both runs use it up at the same pace. -/
theorem run_rename (htables : table.Corresponds φ table') (fuel : Nat) (c : Config) :
    run g' table' fuel (c.rename φ) = (run g table fuel c).map (Outcome.rename φ) := by
  induction fuel generalizing c with
  | zero => rfl
  | succ fuel ih =>
    rw [run, run, h.step_rename htables]
    cases c.step g table with
    | next c => exact ih c
    | stop o => rfl

/-- **The run ends when that of the grammar does.** -/
theorem stops_rename (htables : table.Corresponds φ table') {o : Outcome} :
    Stops g' table' (c.rename φ) o ↔ ∃ o', Stops g table c o' ∧ o'.rename φ = o := by
  constructor
  · rintro ⟨fuel, hrun⟩
    rw [h.run_rename htables, Option.map_eq_some_iff] at hrun
    obtain ⟨o', hrun, rfl⟩ := hrun
    exact ⟨o', ⟨fuel, hrun⟩, rfl⟩
  · rintro ⟨o', ⟨fuel, hrun⟩, rfl⟩
    exact ⟨fuel, by rw [h.run_rename htables, hrun]; rfl⟩

/-- The start symbol is renamed to the start symbol and the end mark below it stays, so the first
states correspond. -/
theorem initial_rename (tokens : TokenStream) :
    Config.initial g'.start tokens = (Config.initial g.start tokens).rename φ := by
  simp [Config.initial, Config.rename, StackEntry.rename, Tree.renameForest, h.start_eq,
    h.apply_endMark]

/-- The bound is computed from the number of symbols, the lengths of right sides and the stream, and
these are kept. -/
theorem stepBound_eq (tokens : TokenStream) : stepBound g' tokens = stepBound g tokens := by
  have hwidths : (g'.productions.map fun p => p.right.length) =
      g.productions.map fun p => p.right.length := by
    rw [h.productions_eq, List.map_map]
    exact List.map_congr_left fun p _ => List.length_map φ
  rw [stepBound, hwidths, h.length_eq]
  rfl

/-- **The parse ends when that of the grammar does, with the renamed outcome.** -/
theorem parse_rename (htables : table.Corresponds φ table') (tokens : TokenStream) :
    g'.parse table' tokens = (g.parse table tokens).map (Outcome.rename φ) := by
  rw [Grammar.parse, Grammar.parseFrom, h.stepBound_eq, h.initial_rename, h.run_rename htables]
  rfl

end Renames

/-! ## Trees -/

namespace Tree

mutual

/-- A tree is printed by the names at its nodes, so the renamed tree is printed with the renamed
grammar as the tree is with the grammar.  One format after the other follows. -/
theorem plain_rename (h : Renames φ g g') : ∀ t : Tree, plain g' (t.rename φ) = plain g t
  | epsilon => by rw [rename, plain, plain, ← h.nameOf_eq, h.apply_epsilon]
  | literal s _ => h.nameOf_eq s
  | branch s children => by
    rw [rename, plain, plain, h.nameOf_eq, plainForest_rename h children]

theorem plainForest_rename (h : Renames φ g g') :
    ∀ ts : List Tree, plainForest g' (renameForest φ ts) = plainForest g ts
  | [] => rfl
  | t :: ts => by
    rw [renameForest, plainForest, plainForest, plain_rename h t, plainRest_rename h ts]

theorem plainRest_rename (h : Renames φ g g') :
    ∀ ts : List Tree, plainRest g' (renameForest φ ts) = plainRest g ts
  | [] => rfl
  | t :: ts => by rw [renameForest, plainRest, plainRest, plain_rename h t, plainRest_rename h ts]

end

mutual

/-- In LaTeX too, whatever the escape of names. -/
theorem latex_rename (h : Renames φ g g') :
    ∀ t : Tree, latex escape g' (t.rename φ) = latex escape g t
  | epsilon => by rw [rename, latex, latex, ← h.nameOf_eq, h.apply_epsilon]
  | literal s _ => by rw [rename, latex, latex, h.nameOf_eq]
  | branch s [] => by rw [rename, renameForest, latex, latex, h.nameOf_eq]
  | branch s (t :: ts) => by
    rw [rename, renameForest, latex, latex, h.nameOf_eq, latex_rename h t, latexRest_rename h ts]

theorem latexRest_rename (h : Renames φ g g') :
    ∀ ts : List Tree, latexRest escape g' (renameForest φ ts) = latexRest escape g ts
  | [] => rfl
  | t :: ts => by rw [renameForest, latexRest, latexRest, latex_rename h t, latexRest_rename h ts]

end

mutual

/-- The fields of an object are names, lexemes and children. -/
theorem json_rename (h : Renames φ g g') : ∀ t : Tree, json g' (t.rename φ) = json g t
  | epsilon => by rw [rename, json, json, ← h.nameOf_eq, h.apply_epsilon]
  | literal s _ => by rw [rename, json, json, h.nameOf_eq]
  | branch s [] => by rw [rename, renameForest, json, json, h.nameOf_eq]
  | branch s (t :: ts) => by
    rw [rename, renameForest, json, json, h.nameOf_eq, json_rename h t, jsonForest_rename h ts]

theorem jsonForest_rename (h : Renames φ g g') :
    ∀ ts : List Tree, jsonForest g' (renameForest φ ts) = jsonForest g ts
  | [] => rfl
  | t :: ts => by rw [renameForest, jsonForest, jsonForest, json_rename h t, jsonForest_rename h ts]

end

end Tree

/-- An outcome as it is printed, with what is left of the stream. -/
def Outcome.print (g : Grammar) (format : Format) (escape : String → String) (o : Outcome) :
    Except ParseError String × TokenStream :=
  (o.result.map fun t => t.render format g escape, o.tokens)

namespace Renames

variable (h : Renames φ g g')

include h

/-- **A renamed tree is printed as the tree is.** -/
theorem render_rename (t : ParseTree) (format : Format) (escape : String → String) :
    (t.rename φ).render format g' escape = t.render format g escape := by
  have hstart : (t.rename φ).start? = t.start?.map (Tree.rename φ) := by
    rw [ParseTree.start?, ParseTree.rename, Tree.renameForest_eq_map, List.head?_map]
    rfl
  cases format <;>
    simp [ParseTree.render, ParseTree.plain, ParseTree.latex, ParseTree.json, hstart,
      Function.comp_def, Tree.plain_rename h, Tree.latex_rename h, Tree.json_rename h]

/-- An error is in words already, and a tree is printed alike. -/
theorem print_rename (o : Outcome) (format : Format) (escape : String → String) :
    (o.rename φ).print g' format escape = o.print g format escape := by
  obtain ⟨result, tokens⟩ := o
  cases result with
  | error e => rfl
  | ok t => exact congrArg (fun out => (Except.ok out, tokens)) (h.render_rename t format escape)

/-- **Every parse is printed alike.** -/
theorem map_print_parse (htable : g.predictiveTable policy = .ok table)
    (htable' : g'.predictiveTable policy' = .ok table') (tokens : TokenStream) (format : Format)
    (escape : String → String) :
    (g'.parse table' tokens).map (Outcome.print g' format escape) =
      (g.parse table tokens).map (Outcome.print g format escape) := by
  rw [h.parse_rename (h.corresponds htable htable'), Option.map_map]
  exact congrArg (fun f => (g.parse table tokens).map f)
    (funext fun o => h.print_rename o format escape)

/-- **Parses end together.** Every outcome of the renamed grammar is a renamed outcome. -/
theorem exists_stops_iff (htable : g.predictiveTable policy = .ok table)
    (htable' : g'.predictiveTable policy' = .ok table') (tokens : TokenStream) :
    (∃ o, Stops g' table' (.initial g'.start tokens) o) ↔
      ∃ o, Stops g table (.initial g.start tokens) o := by
  rw [h.initial_rename]
  simp only [h.stops_rename (h.corresponds htable htable')]
  exact ⟨fun ⟨_, o, ho, _⟩ => ⟨o, ho⟩, fun ⟨o, ho⟩ => ⟨_, o, ho, rfl⟩⟩

end Renames

end GrammarTables
