/-!
# Error — what can go wrong, and how it is worded

Each kind of failure is a type whose constructors are its causes, and has one function `message`
that words it.  Only the wording is text.
-/

namespace GrammarTables

/-- Why a grammar cannot be made, or a question about it not be answered. -/
inductive GrammarError
  /-- A line of a grammar text, counted from 1, is neither a rule nor a continuation. -/
  | malformed (line : Nat) (reason : String)
  /-- The name, or the index after a `#`, stands for no symbol, or for no non-terminal. -/
  | undefinedSymbol (name : String)
  /-- The name already stands for a symbol of another kind. -/
  | terminalNonTerminal (name : String)
  /-- Only a non-terminal has alternatives and can be the start symbol. -/
  | notANonTerminal (name : String)
  | missingStartSymbol
  /-- The end mark is mentioned under two left sides. -/
  | multipleStartSymbols (first second : String)
  /-- A set still grew after `limit` rounds. -/
  | tooComplex (limit : Nat)
deriving DecidableEq

namespace GrammarError

/-- The wording. -/
def message : GrammarError → String
  | malformed line reason => "Line " ++ line.repr ++ ": " ++ reason
  | undefinedSymbol name => "'" ++ name ++ "' is not defined in the grammar"
  | terminalNonTerminal name =>
    "'" ++ name ++ "' is declared as both a terminal and a non-terminal"
  | notANonTerminal name => "'" ++ name ++ "' has productions but is not a non-terminal"
  | missingStartSymbol => "the grammar has no start symbol"
  | multipleStartSymbols first second =>
    "both '" ++ first ++ "' and '" ++ second ++
      "' produce the end marker; the start symbol must be unique"
  | tooComplex limit => "set computation did not settle within " ++ limit.repr ++ " rounds"

end GrammarError

/-- Two productions of one non-terminal that predict the same lookahead. -/
structure PredictConflict where
  nonTerminal : String
  terminal : String
  /-- The ordinal that holds the cell. -/
  first : Nat
  /-- The ordinal that found it taken. -/
  second : Nat
deriving DecidableEq

/-- The wording. -/
def PredictConflict.message (c : PredictConflict) : String :=
  "conflict at (" ++ c.nonTerminal ++ ", " ++ c.terminal ++ "): productions " ++ c.first.repr ++
    " and " ++ c.second.repr

/-- Why a predictive table cannot be made. -/
inductive TableError
  | grammar (error : GrammarError)
  | conflicts (list : List PredictConflict)
deriving DecidableEq

/-- The wording. -/
def TableError.message : TableError → String
  | grammar error => error.message
  | conflicts list =>
    "grammar is not LL(1): " ++ "; ".intercalate (list.map PredictConflict.message)

/-- What a parser looked for when it rejected a token. -/
inductive Expected
  /-- A token for which the table has a production of this non-terminal. -/
  | nonTerminal (name : String)
  /-- This terminal, or the end mark. -/
  | terminal (name : String)
deriving DecidableEq

/-- The wording. -/
def Expected.message : Expected → String
  | nonTerminal name => "a token in the predict set of " ++ name
  | terminal name => "'" ++ name ++ "'"

/-- A parser found its table, its start symbol or its own stack unfit. -/
inductive InternalError
  | stackUnderflow
  | ascendPastRoot
  | unknownSymbol (symbol : Nat)
  | unknownProduction (ordinal : Nat)
  | unbalancedTree
deriving DecidableEq

/-- The wording. -/
def InternalError.message : InternalError → String
  | stackUnderflow => "symbol stack emptied before the end marker was matched"
  | ascendPastRoot => "tried to ascend above the parse tree root"
  | unknownSymbol symbol => "stack holds unknown symbol #" ++ symbol.repr
  | unknownProduction ordinal => "table refers to unknown production " ++ ordinal.repr
  | unbalancedTree => "parse finished away from the parse tree root"

/-- Why a parse stops without a tree. -/
inductive ParseError
  /-- The token at `position`, of kind `found`, cannot stand there. -/
  | unexpectedToken (position : Nat) (expected : Expected) (found : String)
  | internal (error : InternalError)
deriving DecidableEq

/-- The wording. -/
def ParseError.message : ParseError → String
  | unexpectedToken position expected found =>
    "token " ++ position.repr ++ ": expected " ++ expected.message ++ ", found '" ++ found ++ "'"
  | internal error => "internal parser error: " ++ error.message

end GrammarTables
