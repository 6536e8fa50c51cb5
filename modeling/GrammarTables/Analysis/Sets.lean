import GrammarTables.Analysis.SetTable
import GrammarTables.Analysis.Settle
import GrammarTables.Grammar.Basic

/-!
# Analysis/Sets — nullable, FIRST and FOLLOW

The three are least sets closed under rules that the productions give, computed in this order:

* a non-terminal is nullable when all symbols of one of its alternatives are;
* FIRST of a non-terminal holds the literals that an alternative can begin with;
* FOLLOW of a non-terminal holds the literals that can come after it, the end mark coming after the
  start symbol.

A sequence may hold the empty string; it is nullable and begins with nothing.
-/

namespace GrammarTables

/-! ## The rules -/

/-- Whether every symbol of the sequence is nullable. -/
def nullableSequence (nullable : List SymbolId) (sequence : List SymbolId) : Bool :=
  sequence.all nullable.contains

/-- The literals that a sequence can begin with. -/
def firstOfSequence (g : Grammar) (nullable : List SymbolId) (first : SetTable) :
    List SymbolId → List SymbolId
  | [] => []
  | s :: rest =>
    if g.isLiteral s then [s]
    else if nullable.contains s then
      Ascending.union (first.of s) (firstOfSequence g nullable first rest)
    else first.of s

/-- The symbols of a sequence, each with what comes after it. -/
def trailers : List SymbolId → List (SymbolId × List SymbolId)
  | [] => []
  | s :: rest => (s, rest) :: trailers rest

/-- The non-terminals with an alternative that is nullable already. -/
def moreNullable (g : Grammar) (nullable : List SymbolId) : List SymbolId :=
  (g.productions.filter fun p => nullableSequence nullable p.right).map Production.left

/-- What the alternatives of the left sides begin with, as far as it is known. -/
def moreFirst (g : Grammar) (nullable : List SymbolId) (first : SetTable) :
    List (SymbolId × List SymbolId) :=
  g.productions.map fun p => (p.left, firstOfSequence g nullable first p.right)

/-- What a sequence begins with and, where it is nullable, what comes after `left`. -/
def firstOrFollow (g : Grammar) (nullable : List SymbolId) (first follow : SetTable)
    (left : SymbolId) (sequence : List SymbolId) : List SymbolId :=
  let begins := firstOfSequence g nullable first sequence
  if nullableSequence nullable sequence then Ascending.union begins (follow.of left) else begins

/-- What comes after the non-terminals of the alternatives, as far as it is known. -/
def moreFollow (g : Grammar) (nullable : List SymbolId) (first follow : SetTable) :
    List (SymbolId × List SymbolId) :=
  g.productions.flatMap fun p =>
    ((trailers p.right).filter fun (s, _) => g.isNonTerminal s).map fun (s, rest) =>
      (s, firstOrFollow g nullable first follow p.left rest)

/-! ## The sets -/

/-- Nullable, FIRST and FOLLOW of a grammar. -/
structure Sets where
  /-- The nullable symbols: the empty string and some non-terminals. -/
  nullable : List SymbolId
  /-- FIRST of the non-terminals; the sets of other symbols are empty. -/
  first : SetTable
  /-- FOLLOW of the non-terminals; the sets of other symbols are empty. -/
  follow : SetTable
deriving DecidableEq

namespace Grammar

/-- The rounds after which a set is given up.  A round that changes something adds a symbol, or a
literal to the set of a non-terminal, so one round more than there are of these always settles. -/
def roundLimit (g : Grammar) : Nat :=
  g.productions.length * g.symbols.length + 1

/-- A value after its rounds. -/
def settle {α : Type} [DecidableEq α] (g : Grammar) (round : α → α) (value : α) :
    Except GrammarError α :=
  match settle? round g.roundLimit value with
  | some result => .ok result
  | none => .error (.tooComplex g.roundLimit)

/-- One round for the nullable symbols. -/
def nullableRound (g : Grammar) (nullable : List SymbolId) : List SymbolId :=
  Ascending.insertAll (moreNullable g nullable) nullable

/-- One round for FIRST. -/
def firstRound (g : Grammar) (nullable : List SymbolId) (first : SetTable) : SetTable :=
  first.addAll (moreFirst g nullable first)

/-- One round for FOLLOW. -/
def followRound (g : Grammar) (nullable : List SymbolId) (first follow : SetTable) : SetTable :=
  follow.addAll (moreFollow g nullable first follow)

/-- Nullable, FIRST and FOLLOW. -/
def sets (g : Grammar) : Except GrammarError Sets := do
  let none := SetTable.empty g.symbols.length
  let nullable ← g.settle g.nullableRound [epsilonId]
  let first ← g.settle (g.firstRound nullable) none
  let follow ← g.settle (g.followRound nullable first) (none.add g.start [endMarkId])
  return ⟨nullable, first, follow⟩

end Grammar

namespace Sets

/-- Whether every symbol of the sequence derives the empty string. -/
def nullableAll (sets : Sets) (sequence : List SymbolId) : Bool :=
  nullableSequence sets.nullable sequence

/-- FIRST of a sequence. -/
def firstOf (sets : Sets) (g : Grammar) (sequence : List SymbolId) : List SymbolId :=
  firstOfSequence g sets.nullable sets.first sequence

/-- FOLLOW of a non-terminal. -/
def followOf (sets : Sets) (s : SymbolId) : List SymbolId :=
  sets.follow.of s

/-- PREDICT of an alternative: the lookaheads on which it is expanded. -/
def predict (sets : Sets) (g : Grammar) (left : SymbolId) (right : List SymbolId) :
    List SymbolId :=
  firstOrFollow g sets.nullable sets.first sets.follow left right

end Sets

/-! ## Questions by number

Each checks the numbers it is given before it answers. -/

namespace Grammar

/-- Every number of the sequence must be a symbol's. -/
def checkAll (g : Grammar) (sequence : List SymbolId) : Except GrammarError Unit :=
  match sequence.find? fun s => g.symbols.length ≤ s with
  | some s => .error (.undefinedSymbol (numberName s))
  | none => .ok ()

/-- Whether every symbol of the sequence derives the empty string. -/
def sequenceDerivesEmpty (g : Grammar) (sequence : List SymbolId) :
    Except GrammarError Bool := do
  g.checkAll sequence
  return (← g.sets).nullableAll sequence

/-- Whether a symbol derives the empty string. -/
def derivesEmpty (g : Grammar) (s : SymbolId) : Except GrammarError Bool := do
  g.checkAll [s]
  return (← g.sets).nullable.contains s

/-- FIRST of a sequence. -/
def firstOf (g : Grammar) (sequence : List SymbolId) : Except GrammarError (List SymbolId) := do
  g.checkAll sequence
  return (← g.sets).firstOf g sequence

/-- FOLLOW of a non-terminal. -/
def followOf (g : Grammar) (s : SymbolId) : Except GrammarError (List SymbolId) := do
  let _ ← g.alternatives s
  return (← g.sets).followOf s

/-- PREDICT of one alternative. -/
def predictOf (g : Grammar) (left : SymbolId) (number : Nat) :
    Except GrammarError (List SymbolId) := do
  let right ← g.alternative left number
  return (← g.sets).predict g left right

end Grammar

end GrammarTables
