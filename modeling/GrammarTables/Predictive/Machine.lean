import GrammarTables.Predictive.Table
import GrammarTables.Predictive.Tree

/-!
# Predictive/Machine — the table-driven LL(1) parser

The parser is a stack machine.  Its stack holds what is still to be matched; below a non-terminal
that it expands it puts an `ascend` entry, which closes the branch once the right side is done.
The tree is kept opened at the branch being filled: `path` lists the open branches from the
innermost outwards, each with its finished children.

One step pops one entry (`Config.step`); `run` repeats it.  The machine need not stop, since
the end mark can be matched for ever once the tokens have run out; `parse` gives it as many steps
as a run that stops can take (`stepBound`) and answers `none` beyond.
-/

namespace GrammarTables

/-- An entry of the parser's stack. -/
inductive StackEntry
  /-- A symbol to be expanded or matched. -/
  | symbol (s : SymbolId)
  /-- An empty string in a right side. -/
  | epsilon
  /-- The children of the innermost open branch are done. -/
  | ascend
deriving DecidableEq

/-- An open branch: its symbol and its finished children. -/
structure OpenBranch where
  symbol : SymbolId
  children : List Tree

/-- The state of the parser. -/
structure Config where
  stack : List StackEntry
  /-- The open branches, the innermost first. -/
  path : List OpenBranch
  /-- The finished trees below the root. -/
  trees : List Tree
  /-- Whether an end mark has been matched directly below the root. -/
  accepted : Bool
  tokens : TokenStream

/-- How a parse ends, and the stream it leaves. -/
structure Outcome where
  result : Except ParseError ParseTree
  tokens : TokenStream

/-- What one step leads to. -/
inductive Progress
  | next (config : Config)
  | stop (outcome : Outcome)

/-- How an entry stands for a symbol of a right side. -/
def StackEntry.ofSymbol (s : SymbolId) : StackEntry :=
  if s = epsilonId then epsilon else symbol s

namespace TokenStream

/-- The literal that the next token names. -/
def lookahead? (tokens : TokenStream) (g : Grammar) : Option SymbolId :=
  (g.index? tokens.peek.kind).filter g.isLiteral

/-- The error at the next token. -/
def unexpected (tokens : TokenStream) (expected : Expected) : ParseError :=
  .unexpectedToken tokens.position expected tokens.peek.kind

end TokenStream

namespace Config

/-- The parser before its first step: the start symbol is to be matched, and then the end mark. -/
def initial (start : SymbolId) (tokens : TokenStream) : Config :=
  ⟨[.symbol start, .symbol endMarkId], [], [], false, tokens⟩

/-- `t` as the next child of the innermost open branch, or of the root when none is open. -/
def attach (c : Config) (t : Tree) : Config :=
  match c.path with
  | [] => { c with trees := c.trees ++ [t] }
  | b :: outer => { c with path := { b with children := b.children ++ [t] } :: outer }

/-- The parse stops with an error; no token is taken. -/
def fail (c : Config) (e : ParseError) : Progress :=
  .stop ⟨.error e, c.tokens⟩

/-- Closes the innermost open branch. -/
def ascend (c : Config) : Progress :=
  match c.path with
  | [] => c.fail (.internal .ascendPastRoot)
  | b :: outer => .next ({ c with path := outer }.attach (.branch b.symbol b.children))

/-- Expands the non-terminal `s` by the production that the table gives. -/
def expand (c : Config) (g : Grammar) (table : PredictiveTable) (s : SymbolId) (name : String) :
    Progress :=
  match (c.tokens.lookahead? g).bind (table.get? s) with
  | none => c.fail (c.tokens.unexpected (.nonTerminal name))
  | some ordinal =>
    match (g.production? ordinal).filter fun p => p.left = s with
    | none => c.fail (.internal (.unknownProduction ordinal))
    | some p =>
      .next { c with
        stack := p.right.map StackEntry.ofSymbol ++ .ascend :: c.stack
        path := ⟨s, []⟩ :: c.path }

/-- Matches the literal `s` with the next token.  An end mark directly below the root is the bottom
of the stack and gets no leaf. -/
def consume (c : Config) (g : Grammar) (s : SymbolId) : Progress :=
  if c.tokens.lookahead? g = some s then
    let rest := { c with tokens := c.tokens.pop }
    if s = endMarkId && c.path.isEmpty then .next { rest with accepted := true }
    else .next (rest.attach (.literal s c.tokens.peek))
  else c.fail (c.tokens.unexpected (.terminal (g.nameOf s)))

/-- The stack is empty: the parse succeeds if the end mark was matched below the root, every branch
is closed, the root has a child, and all tokens are taken. -/
def finish (c : Config) (g : Grammar) : Outcome :=
  let result : Except ParseError ParseTree :=
    if !c.accepted then .error (.internal .stackUnderflow)
    else if !c.path.isEmpty || c.trees.isEmpty then .error (.internal .unbalancedTree)
    else if !c.tokens.isExhausted then
      .error (c.tokens.unexpected (.terminal (g.nameOf endMarkId)))
    else .ok ⟨c.trees⟩
  ⟨result, c.tokens⟩

/-- One step: what the top of the stack asks for. -/
def step (g : Grammar) (table : PredictiveTable) (c : Config) : Progress :=
  match c.stack with
  | [] => .stop (c.finish g)
  | entry :: stack =>
    let c := { c with stack := stack }
    match entry with
    | .ascend => c.ascend
    | .epsilon => .next (c.attach .epsilon)
    | .symbol s =>
      match g.symbol? s with
      | none => c.fail (.internal (.unknownSymbol s))
      | some .epsilon => .next (c.attach .epsilon)
      | some (.nonTerminal name _) => c.expand g table s name
      | some _ => c.consume g s

end Config

/-- At most `fuel` steps; `none` when the parser has not stopped by then. -/
def run (g : Grammar) (table : PredictiveTable) : Nat → Config → Option Outcome
  | 0, _ => none
  | fuel + 1, c =>
    match c.step g table with
    | .next c => run g table fuel c
    | .stop outcome => some outcome

/-- A number of steps within which every parse stops that stops at all.

While no token is taken the lookahead stays the same, and so does the production of each
non-terminal.  A non-terminal below itself would then be expanded for ever, so the tree below one
stack entry is at most as deep as there are symbols, and as wide as the longest right side: that is
`below` steps.  Each of the stretches between two tokens handles the entries it finds and adds at
most those of one such tree. -/
def stepBound (g : Grammar) (tokens : TokenStream) : Nat :=
  let width := (g.productions.map fun p => p.right.length).foldr max 1 + 2
  let below := Nat.pow width (g.symbols.length + 1)
  let stretches := tokens.rest.length + 2
  stretches * (stretches * (width * below) + 2) * below

namespace Grammar

/-- Parses the tokens of a stream from the symbol `start`; `none` if that never ends. -/
def parseFrom (g : Grammar) (table : PredictiveTable) (start : SymbolId) (tokens : TokenStream) :
    Option Outcome :=
  run g table (stepBound g tokens) (.initial start tokens)

/-- Parses the tokens of a stream from the start symbol. -/
def parse (g : Grammar) (table : PredictiveTable) (tokens : TokenStream) : Option Outcome :=
  g.parseFrom table g.start tokens

end Grammar

end GrammarTables
