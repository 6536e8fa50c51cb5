import GrammarTables.Proofs.Analysis.Sweep
import GrammarTables.Proofs.Predictive.Report
import GrammarTables.Report

/-!
# Proofs/RoundLimit — the round limit is never reached

Whether the sets are found by rounds or by sweeps in place, some round within the limit changes
nothing (`Proofs/Analysis/Settled`, `Proofs/Analysis/Sweep`).  A call that needs the sets checks its
numbers first and fails for no other reason, so **no call on a built grammar gives up for being too
complex** (`Built.rounds_suffice`).
-/

namespace GrammarTables

variable {α β : Type} {g : Grammar} {s : SymbolId} {w : List SymbolId}

/-! ## Calls -/

/-- A call for which the sets are computed. -/
inductive SetsCall
  | derivesEmpty (s : SymbolId)
  | sequenceDerivesEmpty (sequence : List SymbolId)
  | firstOf (sequence : List SymbolId)
  | followOf (s : SymbolId)
  | predictOf (left : SymbolId) (number : Nat)
  | predictiveTable (policy : ConflictPolicy)
  | actionTable (automaton : Automaton)
  | report (report : Report) (format : Format) (escape : String → String)

/-- The error, if there is one. -/
def error? {ε : Type} : Except ε α → Option ε
  | .error e => some e
  | .ok _ => none

/-- What the call says of the grammar when it fails.  A conflict says nothing against it. -/
def SetsCall.error? (g : Grammar) : SetsCall → Option GrammarError
  | derivesEmpty s => GrammarTables.error? (g.derivesEmpty s)
  | sequenceDerivesEmpty sequence => GrammarTables.error? (g.sequenceDerivesEmpty sequence)
  | firstOf sequence => GrammarTables.error? (g.firstOf sequence)
  | followOf s => GrammarTables.error? (g.followOf s)
  | predictOf left number => GrammarTables.error? (g.predictOf left number)
  | predictiveTable policy =>
    match g.predictiveTable policy with
    | .error (.grammar e) => some e
    | _ => none
  | actionTable automaton => GrammarTables.error? (automaton.actionTable g)
  | report what format escape => GrammarTables.error? (what.render format g escape)

/-! ## Calls that settle -/

/-- The call does not fail for being too complex. -/
def Settles (x : Except GrammarError α) : Prop :=
  ∀ limit, error? x ≠ some (.tooComplex limit)

/-- A call that answers has not failed. -/
theorem settles_ok (a : α) : Settles (.ok a) :=
  fun _ => nofun

/-- A number or name that the grammar does not know is the other reason to fail. -/
theorem settles_undefinedSymbol (name : String) :
    Settles (.error (.undefinedSymbol name) : Except GrammarError α) :=
  fun _ => nofun

/-- **Calls are made of calls.** What comes after a call that settles has to settle for every answer
of it. -/
theorem Settles.bind {x : Except GrammarError α} {f : α → Except GrammarError β} (hx : Settles x)
    (hf : ∀ a, Settles (f a)) : Settles (x >>= f) := by
  cases x with
  | error e => exact hx
  | ok a => exact hf a

namespace Grammar

/-- The check of numbers comes before the sets are looked at, and fails for an unknown number
only. -/
theorem settles_checkAll : Settles (g.checkAll w) := by
  rw [checkAll]
  split
  · exact settles_undefinedSymbol _
  · exact settles_ok _

/-- Asking for the alternatives of a symbol fails when the symbol has none. -/
theorem settles_alternatives : Settles (g.alternatives s) := by
  rw [Grammar.alternatives, symbol]
  cases g.symbol? s with
  | none => exact settles_undefinedSymbol _
  | some symbol =>
    cases symbol with
    | nonTerminal name alternatives => exact settles_ok _
    | _ => exact settles_undefinedSymbol _

/-- Asking for one of them fails for the same reason, or when there are fewer. -/
theorem settles_alternative {number : Nat} : Settles (g.alternative s number) := by
  have halternatives := settles_alternatives (g := g) (s := s)
  rw [alternative]
  cases h : g.alternatives s with
  | error e =>
    rw [h] at halternatives
    exact halternatives
  | ok rights =>
    dsimp only
    split
    · exact settles_ok _
    · exact settles_undefinedSymbol _

section

variable (hg : g.Built)

include hg

/-- The sets are there for every built grammar, and this is all that the rounds can fail in. -/
theorem Built.settles_sets : Settles g.sets := by
  obtain ⟨sets, hsets, -⟩ := hg.wellFormed.exists_sets
  rw [hsets]
  exact settles_ok sets

/-- A report takes the sets, spells them out and prints them, whatever the format and the escape.
The predictive table asks for productions by the numbers of their alternatives, and these exist. -/
theorem Built.settles_render (report : Report) (format : Format) (escape : String → String) :
    Settles (report.render format g escape) := by
  cases report with
  | productions => exact settles_ok _
  | sets => exact (hg.settles_sets.bind fun _ => settles_ok _).bind fun _ => settles_ok _
  | predict => exact (hg.settles_sets.bind fun _ => settles_ok _).bind fun _ => settles_ok _
  | predictiveTable =>
    rw [Report.render, hg.predictiveReport_eq]
    exact settles_ok _
  | automaton => exact settles_ok _
  | actionTable => exact (hg.settles_sets.bind fun _ => settles_ok _).bind fun _ => settles_ok _

/-- **No call gives up for being too complex.** -/
theorem Built.error?_ne_tooComplex (call : SetsCall) (limit : Nat) :
    call.error? g ≠ some (.tooComplex limit) := by
  have settles_answer {γ : Type} {answer : Sets → γ} : Settles (do return answer (← g.sets)) :=
    hg.settles_sets.bind fun _ => settles_ok _
  cases call with
  | derivesEmpty s => exact settles_checkAll.bind (fun _ => settles_answer) limit
  | sequenceDerivesEmpty sequence => exact settles_checkAll.bind (fun _ => settles_answer) limit
  | firstOf sequence => exact settles_checkAll.bind (fun _ => settles_answer) limit
  | followOf s => exact settles_alternatives.bind (fun _ => settles_answer) limit
  | predictOf left number => exact settles_alternative.bind (fun _ => settles_answer) limit
  | predictiveTable policy =>
    obtain ⟨table, -, htable⟩ := hg.wellFormed.predictiveTable_eq
    rw [SetsCall.error?, htable]
    cases g.clashes.isEmpty <;> exact nofun
  | actionTable automaton => exact settles_answer limit
  | report what format escape => exact hg.settles_render what format escape limit

end

/-- **The round limit is never reached.**  With the limit at the product of the numbers of
productions and symbols, plus one, each of the three loops has a round that changes nothing, and no
call ever says that a built grammar is too complex. -/
theorem Built.rounds_suffice (hg : g.Built) :
    (∃ sets, g.sets = .ok sets ∧ g.sweptSets = .ok sets ∧
      sweepUntilQuiet g.nullableSweep (g.productions.length * g.symbols.length + 1)
        [epsilonId] = some sets.nullable ∧
      sweepUntilQuiet (g.firstSweep sets.nullable)
        (g.productions.length * g.symbols.length + 1)
        (SetTable.empty g.symbols.length) = some sets.first ∧
      sweepUntilQuiet (g.followSweep sets.nullable sets.first)
        (g.productions.length * g.symbols.length + 1)
        ((SetTable.empty g.symbols.length).add g.start [endMarkId]) = some sets.follow) ∧
    ∀ (call : SetsCall) (limit : Nat), call.error? g ≠ some (.tooComplex limit) := by
  have hwell := hg.wellFormed
  obtain ⟨sets, hsets, hs⟩ := hwell.exists_sets
  exact ⟨⟨sets, hsets, hwell.sweptSets_eq.trans hsets, nullable_swept hwell hs,
    first_swept hwell hs, follow_swept hwell hs⟩, hg.error?_ne_tooComplex⟩

theorem rounds_suffice_tangled : ∃ sets, tangled.sets = .ok sets ∧
    sweepUntilQuiet tangled.nullableSweep 41 [epsilonId] = some sets.nullable ∧
    ∀ limit,
      (SetsCall.report .sets .latex Text.Tex.escape).error? tangled ≠ some (.tooComplex limit) := by
  obtain ⟨⟨sets, hsets, -, hnullable, -⟩, hcalls⟩ := tangled_built.rounds_suffice
  exact ⟨sets, hsets, hnullable, hcalls _⟩

end Grammar

end GrammarTables
