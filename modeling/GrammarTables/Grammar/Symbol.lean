/-!
# Grammar/Symbol — the symbols of a grammar

A grammar numbers its symbols from 0 and speaks of them by these numbers.  Number 0 is the empty
string and number 1 the end of the input; terminals and non-terminals follow.
-/

namespace GrammarTables

/-- The number of a symbol in its grammar. -/
abbrev SymbolId := Nat

/-- The number of the empty string. -/
abbrev epsilonId : SymbolId := 0

/-- The number of the end mark. -/
abbrev endMarkId : SymbolId := 1

/-- A symbol; a non-terminal carries its alternatives. -/
inductive Symbol
  | epsilon
  | endMark
  | terminal (name : String)
  | nonTerminal (name : String) (alternatives : List (List SymbolId))
deriving DecidableEq

namespace Symbol

/-- How the end mark is written. -/
def endMarkName : String := "$"

/-- How the empty string is written. -/
def epsilonName : String := "lambda"

/-- Other ways to write the empty string: the two Unicode forms of the letter. -/
def epsilonAliases : List String := ["\u03b5", "\u03f5"]

/-- The name a symbol is printed by. -/
def name : Symbol → String
  | epsilon => epsilonName
  | endMark => endMarkName
  | terminal name => name
  | nonTerminal name _ => name

/-- Whether `name` stands for the symbol. -/
def isCalled (name : String) : Symbol → Bool
  | epsilon => name = epsilonName || epsilonAliases.contains name
  | symbol => symbol.name = name

/-- Whether the symbol is a terminal; the end mark is none. -/
def isTerminal : Symbol → Bool
  | terminal _ => true
  | _ => false

/-- Whether the symbol is a non-terminal. -/
def isNonTerminal : Symbol → Bool
  | nonTerminal .. => true
  | _ => false

/-- Whether the symbol is matched against the input: a terminal or the end mark. -/
def isLiteral : Symbol → Bool
  | terminal _ | endMark => true
  | _ => false

/-- The number of the symbol called `name`. -/
def index? (symbols : List Symbol) (name : String) : Option SymbolId :=
  symbols.findIdx? (isCalled name)

end Symbol

end GrammarTables
