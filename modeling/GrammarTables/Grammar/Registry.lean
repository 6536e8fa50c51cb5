import GrammarTables.Grammar.Builder
import Mathlib.Data.List.AList

/-!
# Grammar/Registry — a builder with a table of names, changed in place

A `Builder` finds the number of a name by searching its symbols.  A `Registry` keeps a table of the
names beside the symbols, and each of its non-terminals carries its own number; only the calls keep
the three in step.  A call answers or fails, and **leaves a registry behind in either case**, so
that a failing call changes nothing is no matter of types here.
-/

namespace GrammarTables

/-- A symbol of a registry; a non-terminal carries its own number. -/
inductive Entry
  | epsilon
  | endMark
  | terminal (name : String)
  | nonTerminal (nt : NonTerminal)
deriving DecidableEq

namespace Entry

/-- The symbol, without the number it carries. -/
def symbol : Entry → Symbol
  | epsilon => .epsilon
  | endMark => .endMark
  | terminal name => .terminal name
  | nonTerminal nt => .nonTerminal nt.name nt.alternatives

/-- The entry with one more alternative, if it is a non-terminal. -/
def withAlternative (right : List SymbolId) : Entry → Entry
  | nonTerminal nt => nonTerminal { nt with alternatives := nt.alternatives ++ [right] }
  | entry => entry

/-- The non-terminal of the entry, if it is one. -/
def nonTerminal? : Entry → Option NonTerminal
  | nonTerminal nt => some nt
  | _ => none

end Entry

/-- The numbers of the names that are taken. -/
abbrev NameTable : Type :=
  AList fun _ : String => SymbolId

/-- A grammar in the making, with a table of its names. -/
structure Registry where
  entries : List Entry
  names : NameTable
  start : Option SymbolId

/-- A call on a registry: an answer or an error, and the registry that it leaves behind. -/
abbrev Registering : Type → Type :=
  ExceptT GrammarError (StateM Registry)

/-- The answer to a call on the registry `r`, and the registry that it leaves behind. -/
def Registering.on {α : Type} (x : Registering α) (r : Registry) :
    Except GrammarError α × Registry :=
  x.run.run r

namespace Registry

/-- The registry that has only the empty string, under all of its names, and the end mark. -/
def empty : Registry :=
  let epsilonNames : NameTable := (Symbol.epsilonName :: Symbol.epsilonAliases).foldl
    (fun names name => names.insert name epsilonId) ∅
  ⟨[.epsilon, .endMark], epsilonNames.insert Symbol.endMarkName endMarkId, none⟩

/-- A new entry at the end, or the number under which `name` is known if `isKind` holds of it. -/
def declare (name : String) (isKind : Symbol → Bool) (new : SymbolId → Entry) :
    Registering SymbolId := do
  let r ← get
  match r.names.lookup name with
  | some s =>
    if r.entries[s]?.any fun entry => isKind entry.symbol then return s
    else throw (.terminalNonTerminal name)
  | none =>
    let s := r.entries.length
    modify fun r => { r with entries := r.entries ++ [new s] }
    modify fun r => { r with names := r.names.insert name s }
    return s

/-- Declares a terminal; one that is already there keeps its number. -/
def addTerminal (name : String) : Registering SymbolId :=
  declare name Symbol.isTerminal fun _ => .terminal name

/-- Declares a non-terminal; one that is already there keeps its number. -/
def addNonTerminal (name : String) : Registering SymbolId :=
  declare name Symbol.isNonTerminal fun s => .nonTerminal ⟨s, name, []⟩

/-- Whether a non-terminal has the number `s`; the error says what stands there instead. -/
def requireNonTerminal (s : SymbolId) : Registering Unit := do
  let r ← get
  match r.entries[s]? with
  | some (.nonTerminal _) => return ()
  | some entry => throw (.notANonTerminal entry.symbol.name)
  | none => throw (.undefinedSymbol (Grammar.numberName s))

/-- Gives `left` one more alternative.  An empty one is stored as the empty string alone. -/
def addProduction (left : SymbolId) (right : List SymbolId) : Registering Unit := do
  let r ← get
  match right.find? fun s => r.entries.length ≤ s with
  | some s => throw (.undefinedSymbol (Grammar.numberName s))
  | none =>
    requireNonTerminal left
    let right := if right.isEmpty then [epsilonId] else right
    modify fun r => { r with entries := r.entries.modify left (Entry.withAlternative right) }

/-- Chooses the start symbol. -/
def setStart (s : SymbolId) : Registering Unit := do
  requireNonTerminal s
  modify fun r => { r with start := some s }

/-- The finished grammar.  Its productions are put under the numbers that the non-terminals carry,
wherever these stand. -/
def build (r : Registry) : Except GrammarError Grammar :=
  match r.start with
  | none => .error .missingStartSymbol
  | some start =>
    let nonTerminals := r.entries.filterMap Entry.nonTerminal?
    match nonTerminals.find? fun nt => nt.alternatives.isEmpty with
    | some nt => .error (.undefinedSymbol nt.name)
    | none =>
      let productions :=
        (Ascending.sortBy NonTerminal.name nonTerminals).flatMap NonTerminal.productions
      .ok ⟨r.entries.map Entry.symbol, start,
        productions.zipIdx.map fun (p, i) => { p with ordinal := i + 1 }⟩

/-! ## Histories -/

/-- One call. -/
def edit : Builder.Edit → Registering Unit
  | .terminal name => do let _ ← addTerminal name
  | .nonTerminal name => do let _ ← addNonTerminal name
  | .production left right => addProduction left right
  | .start symbol => setStart symbol

/-- The registry after a history of calls, those that fail included. -/
def after (r : Registry) (edits : List Builder.Edit) : Registry :=
  edits.foldl (fun r e => ((edit e).on r).2) r

/-- The builder that has the same symbols and start symbol. -/
def builder (r : Registry) : Builder :=
  ⟨r.entries.map Entry.symbol, r.start⟩

end Registry

end GrammarTables
