import GrammarTables.Ascending
import GrammarTables.Error
import GrammarTables.Grammar.Symbol

/-!
# Grammar/Basic — context-free grammars and questions about them

A `Grammar` is its numbered symbols, its start symbol and the list of its productions.  Productions
are numbered from 1 in the order of the names of their left sides; the alternatives of one
non-terminal keep their order (`numberedProductions`).

A question about a symbol that the grammar does not have is answered by `none` or by an error,
except by `nameOf`, which writes the number instead.
-/

namespace GrammarTables

/-- One alternative of one non-terminal. -/
structure Production where
  /-- Its number in the grammar, from 1. -/
  ordinal : Nat
  left : SymbolId
  /-- Its number among the alternatives of `left`, from 0. -/
  alternative : Nat
  right : List SymbolId
deriving DecidableEq

/-- A non-terminal with its number. -/
structure NonTerminal where
  index : SymbolId
  name : String
  alternatives : List (List SymbolId)
deriving DecidableEq

/-- The non-terminals among `symbols`, in the order of their numbers. -/
def nonTerminalsOf (symbols : List Symbol) : List NonTerminal :=
  symbols.zipIdx.filterMap fun
    | (.nonTerminal name alternatives, index) => some ⟨index, name, alternatives⟩
    | _ => none

/-- The alternatives of one non-terminal, not yet numbered in the grammar. -/
def NonTerminal.productions (nt : NonTerminal) : List Production :=
  nt.alternatives.zipIdx.map fun (right, alternative) => ⟨0, nt.index, alternative, right⟩

/-- All alternatives, numbered by the name of the left side and then by their place there. -/
def numberedProductions (symbols : List Symbol) : List Production :=
  ((Ascending.sortBy NonTerminal.name (nonTerminalsOf symbols)).flatMap
    NonTerminal.productions).zipIdx.map fun (p, i) => { p with ordinal := i + 1 }

/-- A context-free grammar. -/
structure Grammar where
  symbols : List Symbol
  start : SymbolId
  productions : List Production
deriving DecidableEq

namespace Grammar

/-! ## Symbols -/

/-- The symbol with this number. -/
def symbol? (g : Grammar) (s : SymbolId) : Option Symbol :=
  g.symbols[s]?

/-- The name of the symbol with this number. -/
def name? (g : Grammar) (s : SymbolId) : Option String :=
  (g.symbol? s).map Symbol.name

/-- How an error speaks of a number that is no symbol's. -/
def numberName (s : SymbolId) : String :=
  "#" ++ s.repr

/-- The name of the symbol with this number, or the number where there is none. -/
def nameOf (g : Grammar) (s : SymbolId) : String :=
  (g.name? s).getD (numberName s)

/-- The number of the symbol called `name`. -/
def index? (g : Grammar) (name : String) : Option SymbolId :=
  Symbol.index? g.symbols name

/-- The number of the symbol called `name`, which the caller expects to be there. -/
def index (g : Grammar) (name : String) : Except GrammarError SymbolId :=
  match g.index? name with
  | some s => .ok s
  | none => .error (.undefinedSymbol name)

/-- The symbol with this number, which the caller expects to be there. -/
def symbol (g : Grammar) (s : SymbolId) : Except GrammarError Symbol :=
  match g.symbol? s with
  | some symbol => .ok symbol
  | none => .error (.undefinedSymbol (numberName s))

/-- Whether the number is that of a terminal; the end mark is none. -/
def isTerminal (g : Grammar) (s : SymbolId) : Bool :=
  (g.symbol? s).any Symbol.isTerminal

/-- Whether the number is that of a non-terminal. -/
def isNonTerminal (g : Grammar) (s : SymbolId) : Bool :=
  (g.symbol? s).any Symbol.isNonTerminal

/-- Whether the number is that of a terminal or of the end mark. -/
def isLiteral (g : Grammar) (s : SymbolId) : Bool :=
  (g.symbol? s).any Symbol.isLiteral

/-- Whether a terminal or the end mark stands in the sequence. -/
def containsLiteral (g : Grammar) (sequence : List SymbolId) : Bool :=
  sequence.any g.isLiteral

/-- The terminals, in the order of their numbers; the end mark is not one of them. -/
def terminals (g : Grammar) : List SymbolId :=
  (List.range g.symbols.length).filter g.isTerminal

/-- The non-terminals, in the order of their numbers. -/
def nonTerminals (g : Grammar) : List NonTerminal :=
  nonTerminalsOf g.symbols

/-- The non-terminals, in the order of their names. -/
def nonTerminalsByName (g : Grammar) : List NonTerminal :=
  Ascending.sortBy NonTerminal.name g.nonTerminals

/-- The names of a sequence, in its order. -/
def spell (g : Grammar) (sequence : List SymbolId) : List String :=
  sequence.map g.nameOf

/-- The names of a set of symbols, in ascending order. -/
def names (g : Grammar) (set : List SymbolId) : List String :=
  Ascending.sortBy id (g.spell set)

/-- Whether every number of the sequence is a symbol's. -/
def hasAll (g : Grammar) (sequence : List SymbolId) : Bool :=
  sequence.all fun s => s < g.symbols.length

/-- The names of a sequence, if it has no number that is no symbol's. -/
def spell? (g : Grammar) (sequence : List SymbolId) : Option (List String) :=
  if g.hasAll sequence then some (g.spell sequence) else none

/-- The names of a set, if it has no number that is no symbol's. -/
def names? (g : Grammar) (set : List SymbolId) : Option (List String) :=
  if g.hasAll set then some (g.names set) else none

/-! ## Productions -/

/-- The right sides of a non-terminal. -/
def alternatives (g : Grammar) (s : SymbolId) : Except GrammarError (List (List SymbolId)) :=
  match g.symbol s with
  | .error e => .error e
  | .ok (.nonTerminal _ alternatives) => .ok alternatives
  | .ok symbol => .error (.undefinedSymbol symbol.name)

/-- The right side of one alternative. -/
def alternative (g : Grammar) (left : SymbolId) (number : Nat) :
    Except GrammarError (List SymbolId) :=
  match g.alternatives left with
  | .error e => .error e
  | .ok rights =>
    match rights[number]? with
    | some right => .ok right
    | none => .error (.undefinedSymbol (g.nameOf left ++ " alternative " ++ number.repr))

/-- The production with this ordinal. -/
def production? (g : Grammar) (ordinal : Nat) : Option Production :=
  g.productions.find? fun p => p.ordinal = ordinal

/-- The production that one alternative is. -/
def productionOf (g : Grammar) (left : SymbolId) (number : Nat) :
    Except GrammarError Production :=
  match g.alternative left number with
  | .error e => .error e
  | .ok _ =>
    match g.productions.find? fun p => p.left = left && p.alternative = number with
    | some p => .ok p
    | none => .error (.undefinedSymbol (g.nameOf left))

end Grammar

end GrammarTables
