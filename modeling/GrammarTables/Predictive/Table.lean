import GrammarTables.Analysis.Sets

/-!
# Predictive/Table — the LL(1) table

The table says which production expands a non-terminal on a lookahead.  It is filled with the
predictions of the productions in the order of their ordinals, and with those of one production in
the order of the lookaheads; the first prediction of a cell holds it, and every later one for the
same cell is a conflict.
-/

namespace GrammarTables

/-- What filling does with a conflict. -/
inductive ConflictPolicy
  /-- It stops. -/
  | failFast
  /-- It goes on and reports all of them. -/
  | collect
deriving DecidableEq

/-- A place in the table. -/
structure Cell where
  nonTerminal : SymbolId
  lookahead : SymbolId
deriving DecidableEq

/-- Cells are ordered by non-terminal and then by lookahead. -/
instance cellOrd : Ord Cell :=
  ⟨compareLex (compareOn Cell.nonTerminal) (compareOn Cell.lookahead)⟩

instance cellTransOrd : Std.TransOrd Cell :=
  inferInstanceAs (Std.TransCmp (compareLex (compareOn Cell.nonTerminal) (compareOn Cell.lookahead)))

instance cellLawfulEqOrd : Std.LawfulEqOrd Cell where
  compare_self := Std.compare_self
  eq_of_compare {c d} h := by
    obtain ⟨hn, hl⟩ := compareLex_eq_eq.mp h
    cases c
    cases d
    exact congr (congrArg Cell.mk (Nat.compare_eq_eq.mp hn)) (Nat.compare_eq_eq.mp hl)

/-- The ordinals of the productions to expand by, as a map from the cells that have one. -/
structure PredictiveTable where
  entries : List (Cell × Nat)
deriving DecidableEq

namespace PredictiveTable

/-- The table without an entry. -/
def empty : PredictiveTable :=
  ⟨[]⟩

/-- The ordinal in a cell. -/
def get? (table : PredictiveTable) (nonTerminal lookahead : SymbolId) : Option Nat :=
  Ascending.get? ⟨nonTerminal, lookahead⟩ table.entries

/-- The number of cells that are filled. -/
def size (table : PredictiveTable) : Nat :=
  table.entries.length

/-- Whether no cell is filled. -/
def isEmpty (table : PredictiveTable) : Bool :=
  table.entries.isEmpty

/-- The table with one cell filled. -/
def set (table : PredictiveTable) (cell : Cell) (ordinal : Nat) : PredictiveTable :=
  ⟨Ascending.update cell (fun _ => ordinal) table.entries⟩

end PredictiveTable

/-- The cells that the productions claim with their ordinals, by ordinal and then by lookahead. -/
def Sets.predictions (sets : Sets) (g : Grammar) : List (Cell × Nat) :=
  g.productions.flatMap fun p =>
    (sets.predict g p.left p.right).map fun t => (⟨p.left, t⟩, p.ordinal)

/-- The conflict of two productions in a cell. -/
def Cell.conflict (cell : Cell) (g : Grammar) (holder claimant : Nat) : PredictConflict :=
  ⟨g.nameOf cell.nonTerminal, g.nameOf cell.lookahead, holder, claimant⟩

/-- The table after further predictions, `conflicts` being those met so far. -/
def fill (g : Grammar) (policy : ConflictPolicy) :
    List (Cell × Nat) → PredictiveTable → List PredictConflict →
      Except (List PredictConflict) PredictiveTable
  | [], table, conflicts => if conflicts.isEmpty then .ok table else .error conflicts
  | (cell, ordinal) :: rest, table, conflicts =>
    match table.get? cell.nonTerminal cell.lookahead with
    | none => fill g policy rest (table.set cell ordinal) conflicts
    | some holder =>
      if holder = ordinal then fill g policy rest table conflicts
      else
        let met := conflicts ++ [cell.conflict g holder ordinal]
        match policy with
        | .failFast => .error met
        | .collect => fill g policy rest table met

/-- The LL(1) table of a grammar. -/
def Grammar.predictiveTable (g : Grammar) (policy : ConflictPolicy) :
    Except TableError PredictiveTable :=
  match g.sets with
  | .error e => .error (.grammar e)
  | .ok sets =>
    match fill g policy (sets.predictions g) .empty [] with
    | .ok table => .ok table
    | .error conflicts => .error (.conflicts conflicts)

end GrammarTables
