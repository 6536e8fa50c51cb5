import GrammarTables.Analysis.Sets

/-!
# Analysis/Sweep — the sets, changed in place

A round of `Grammar.sets` reads one value and makes another.  A sweep visits one non-terminal, or
one place in a right side, after the other, and what a visit finds is there for the next one.  A
visit tells whether it has changed anything; sweeping ends after the first sweep that has not.
-/

namespace GrammarTables

/-! ## Sweeping -/

/-- One visit after the other, and whether one of them has changed anything. -/
def sweepOver {α β : Type} (visit : β → α → α × Bool) : List β → α → α × Bool
  | [], value => (value, false)
  | b :: bs, value =>
    let (value, changed) := visit b value
    let (value, changedLater) := sweepOver visit bs value
    (value, changed || changedLater)

/-- The value after the first sweep that changes nothing.  `none` when the first `limit` sweeps all
change something. -/
def sweepUntilQuiet {α : Type} (sweep : α → α × Bool) : Nat → α → Option α
  | 0, _ => none
  | limit + 1, value =>
    let (next, changed) := sweep value
    if changed then sweepUntilQuiet sweep limit next else some next

/-- The table with more members in the set of one symbol, and whether that set has grown. -/
def SetTable.addNoting (table : SetTable) (s : SymbolId) (set : List SymbolId) :
    SetTable × Bool :=
  let next := table.add s set
  (next, (next.of s).length ≠ (table.of s).length)

/-! ## Visits -/

/-- Whether a sequence vanishes: no literal stands in it, and all of its symbols are nullable. -/
def vanishes (g : Grammar) (nullable sequence : List SymbolId) : Bool :=
  !g.containsLiteral sequence && nullableSequence nullable sequence

/-- A non-terminal that is not known to be nullable is added when one of its alternatives
vanishes. -/
def visitNullable (g : Grammar) (nt : NonTerminal) (nullable : List SymbolId) :
    List SymbolId × Bool :=
  if nullable.contains nt.index then (nullable, false)
  else if nt.alternatives.any (vanishes g nullable) then (Ascending.insert nt.index nullable, true)
  else (nullable, false)

/-- What the alternatives of a non-terminal begin with. -/
def firstOfAlternatives (g : Grammar) (nullable : List SymbolId) (first : SetTable)
    (nt : NonTerminal) : List SymbolId :=
  nt.alternatives.foldl
    (fun begins right => Ascending.union (firstOfSequence g nullable first right) begins) []

/-- The set of a non-terminal is computed afresh, and replaces the old one when their sizes
differ. -/
def visitFirst (g : Grammar) (nullable : List SymbolId) (nt : NonTerminal) (first : SetTable) :
    SetTable × Bool :=
  let begins := firstOfAlternatives g nullable first nt
  if begins.length ≠ (first.of nt.index).length then (first.set nt.index begins, true)
  else (first, false)

/-- A symbol in an alternative of `left`, with what stands after it. -/
structure Occurrence where
  left : SymbolId
  symbol : SymbolId
  rest : List SymbolId

/-- Whatever can come after an occurrence of a non-terminal is added to its set. -/
def visitFollow (g : Grammar) (nullable : List SymbolId) (first : SetTable) (o : Occurrence)
    (follow : SetTable) : SetTable × Bool :=
  if g.isNonTerminal o.symbol then
    let begins := firstOfSequence g nullable first o.rest
    follow.addNoting o.symbol
      (if vanishes g nullable o.rest then Ascending.union begins (follow.of o.left) else begins)
  else (follow, false)

/-! ## The sets -/

namespace Grammar

/-- One sweep for the nullable symbols. -/
def nullableSweep (g : Grammar) : List SymbolId → List SymbolId × Bool :=
  sweepOver (visitNullable g) g.nonTerminals

/-- One sweep for FIRST. -/
def firstSweep (g : Grammar) (nullable : List SymbolId) : SetTable → SetTable × Bool :=
  sweepOver (visitFirst g nullable) g.nonTerminals

/-- The symbols of the alternatives, in their order. -/
def occurrences (g : Grammar) : List Occurrence :=
  g.nonTerminals.flatMap fun nt => nt.alternatives.flatMap fun right =>
    (trailers right).map fun (s, rest) => ⟨nt.index, s, rest⟩

/-- One sweep for FOLLOW. -/
def followSweep (g : Grammar) (nullable : List SymbolId) (first : SetTable) :
    SetTable → SetTable × Bool :=
  sweepOver (visitFollow g nullable first) g.occurrences

/-- A value after its sweeps. -/
def afterSweeps {α : Type} (g : Grammar) (sweep : α → α × Bool) (value : α) :
    Except GrammarError α :=
  match sweepUntilQuiet sweep g.roundLimit value with
  | some result => .ok result
  | none => .error (.tooComplex g.roundLimit)

/-- Nullable, FIRST and FOLLOW. -/
def sweptSets (g : Grammar) : Except GrammarError Sets := do
  let none := SetTable.empty g.symbols.length
  let nullable ← g.afterSweeps g.nullableSweep [epsilonId]
  let first ← g.afterSweeps (g.firstSweep nullable) none
  let follow ← g.afterSweeps (g.followSweep nullable first) (none.add g.start [endMarkId])
  return ⟨nullable, first, follow⟩

end Grammar

end GrammarTables
