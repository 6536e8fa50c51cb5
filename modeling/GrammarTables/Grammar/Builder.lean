import GrammarTables.Grammar.Basic

/-!
# Grammar/Builder — making a grammar symbol by symbol

A `Builder` is a grammar in the making.  Each operation either returns the changed builder or an
error, and then the caller still has the builder it had.  `build` checks what only a finished
grammar can promise: a start symbol, and an alternative for every non-terminal.
-/

namespace GrammarTables

/-- A grammar in the making. -/
structure Builder where
  symbols : List Symbol
  start : Option SymbolId
deriving DecidableEq

namespace Builder

/-- The builder that has only the empty string and the end mark. -/
def empty : Builder :=
  ⟨[.epsilon, .endMark], none⟩

/-- The number of the symbol called `name`. -/
def index? (b : Builder) (name : String) : Option SymbolId :=
  Symbol.index? b.symbols name

/-- A new symbol at the end, or the number of the one called `name` if `isKind` holds of it. -/
def declare (b : Builder) (name : String) (isKind : Symbol → Bool) (new : Symbol) :
    Except GrammarError (Builder × SymbolId) :=
  match b.index? name with
  | none => .ok ({ b with symbols := b.symbols ++ [new] }, b.symbols.length)
  | some s =>
    if b.symbols[s]?.any isKind then .ok (b, s) else .error (.terminalNonTerminal name)

/-- Declares a terminal; one that is already there keeps its number. -/
def addTerminal (b : Builder) (name : String) : Except GrammarError (Builder × SymbolId) :=
  b.declare name Symbol.isTerminal (.terminal name)

/-- Declares a non-terminal; one that is already there keeps its number. -/
def addNonTerminal (b : Builder) (name : String) : Except GrammarError (Builder × SymbolId) :=
  b.declare name Symbol.isNonTerminal (.nonTerminal name [])

/-- The symbol with one more alternative, if it is a non-terminal. -/
def withAlternative (right : List SymbolId) : Symbol → Symbol
  | .nonTerminal name alternatives => .nonTerminal name (alternatives ++ [right])
  | symbol => symbol

/-- Whether a non-terminal has the number `s`; the error says what stands there instead. -/
def requireNonTerminal (b : Builder) (s : SymbolId) : Except GrammarError Unit :=
  match b.symbols[s]? with
  | some (.nonTerminal ..) => .ok ()
  | some symbol => .error (.notANonTerminal symbol.name)
  | none => .error (.undefinedSymbol (Grammar.numberName s))

/-- Gives `left` one more alternative.  An empty one is stored as the empty string alone. -/
def addProduction (b : Builder) (left : SymbolId) (right : List SymbolId) :
    Except GrammarError Builder :=
  match right.find? fun s => b.symbols.length ≤ s with
  | some s => .error (.undefinedSymbol (Grammar.numberName s))
  | none =>
    match b.requireNonTerminal left with
    | .error e => .error e
    | .ok () =>
      let right := if right.isEmpty then [epsilonId] else right
      .ok { b with symbols := b.symbols.modify left (withAlternative right) }

/-- Chooses the start symbol. -/
def setStart (b : Builder) (s : SymbolId) : Except GrammarError Builder :=
  match b.requireNonTerminal s with
  | .error e => .error e
  | .ok () => .ok { b with start := some s }

/-- The finished grammar.  A non-terminal without alternatives is only a name, and so undefined. -/
def build (b : Builder) : Except GrammarError Grammar :=
  match b.start with
  | none => .error .missingStartSymbol
  | some start =>
    match (nonTerminalsOf b.symbols).find? fun nt => nt.alternatives.isEmpty with
    | some nt => .error (.undefinedSymbol nt.name)
    | none => .ok ⟨b.symbols, start, numberedProductions b.symbols⟩

/-! ## Histories -/

/-- One change of a builder. -/
inductive Edit
  | terminal (name : String)
  | nonTerminal (name : String)
  | production (left : SymbolId) (right : List SymbolId)
  | start (symbol : SymbolId)

/-- The builder after one change. -/
def edit (b : Builder) : Edit → Except GrammarError Builder
  | .terminal name => (b.addTerminal name).map (·.1)
  | .nonTerminal name => (b.addNonTerminal name).map (·.1)
  | .production left right => b.addProduction left right
  | .start symbol => b.setStart symbol

/-- The builder after a history of changes; one that fails changes nothing. -/
def after (b : Builder) (edits : List Edit) : Builder :=
  edits.foldl (fun b e => (b.edit e).toOption.getD b) b

end Builder

/-- A grammar that some history of changes builds. -/
def Grammar.Built (g : Grammar) : Prop :=
  ∃ edits, (Builder.empty.after edits).build = .ok g

end GrammarTables
