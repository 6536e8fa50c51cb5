import GrammarTables.Predictive.Machine

/-!
# Predictive/Arena — the parser with its nodes in one list

`Predictive/Machine` keeps the tree opened at the branch being filled.  Here the tree is a list of
nodes, each at the place of its number, which is changed in place: a new node goes to the end of the
list, and its number to the end of the children of its parent (`pushNode`).  The node being filled
is known by its number, and an `ascend` entry goes back to its parent.
-/

namespace GrammarTables

/-- The node with more children at the end. -/
def Node.addChildren (ids : List Nat) (node : Node) : Node :=
  { node with children := node.children ++ ids }

/-- The nodes of a tree without anything below its root. -/
def rootNodes : List Node :=
  [⟨none, none, none, []⟩]

/-- The nodes and a new one, as the last child of `parent`. -/
def pushNode (nodes : List Node) (parent : Nat) (symbol : SymbolId) (token : Option Token) :
    List Node :=
  let node : Node := ⟨some symbol, some parent, token, []⟩
  (nodes ++ [node]).modify parent (Node.addChildren [nodes.length])

/-- The number of the parent of a node, if it has one. -/
def parent? (nodes : List Node) (id : Nat) : Option Nat :=
  nodes[id]?.bind Node.parent

/-- The number of the first node below the root. -/
def startId? (nodes : List Node) : Option Nat :=
  nodes.head?.bind fun root => root.children.head?

/-- The state of the parser with its nodes in one list. -/
structure Arena where
  stack : List StackEntry
  nodes : List Node
  /-- The number of the node being filled. -/
  current : Nat
  /-- Whether an end mark has been matched directly below the root. -/
  accepted : Bool
  tokens : TokenStream

namespace Arena

/-- How a parse ends, and the stream it leaves. -/
structure Outcome where
  result : Except ParseError (List Node)
  tokens : TokenStream

/-- What one step leads to. -/
inductive Progress
  | next (arena : Arena)
  | stop (outcome : Outcome)

/-- The parser before its first step. -/
def initial (start : SymbolId) (tokens : TokenStream) : Arena :=
  ⟨[.symbol start, .symbol endMarkId], rootNodes, 0, false, tokens⟩

/-- A new node below the one being filled. -/
def push (a : Arena) (symbol : SymbolId) (token : Option Token) : Arena :=
  { a with nodes := pushNode a.nodes a.current symbol token }

/-- The parse stops with an error; no token is taken. -/
def fail (a : Arena) (e : ParseError) : Progress :=
  .stop ⟨.error e, a.tokens⟩

/-- Goes back to the parent. -/
def ascend (a : Arena) : Progress :=
  match parent? a.nodes a.current with
  | none => a.fail (.internal .ascendPastRoot)
  | some parent => .next { a with current := parent }

/-- Expands the non-terminal `s` by the production that the table gives, and goes on in its node. -/
def expand (a : Arena) (g : Grammar) (table : PredictiveTable) (s : SymbolId) (name : String) :
    Progress :=
  match (a.tokens.lookahead? g).bind (table.get? s) with
  | none => a.fail (a.tokens.unexpected (.nonTerminal name))
  | some ordinal =>
    match (g.production? ordinal).filter fun p => p.left = s with
    | none => a.fail (.internal (.unknownProduction ordinal))
    | some p =>
      .next { a.push s none with
        stack := p.right.map StackEntry.ofSymbol ++ .ascend :: a.stack
        current := a.nodes.length }

/-- Matches the literal `s` with the next token.  An end mark directly below the root is the bottom
of the stack and gets no node. -/
def consume (a : Arena) (g : Grammar) (s : SymbolId) : Progress :=
  if a.tokens.lookahead? g = some s then
    let rest := { a with tokens := a.tokens.pop }
    if s = endMarkId && a.current = 0 then .next { rest with accepted := true }
    else .next (rest.push s (some a.tokens.peek))
  else a.fail (a.tokens.unexpected (.terminal (g.nameOf s)))

/-- The stack is empty: the parse succeeds if the end mark was matched below the root, the parser is
back at the root, the root has a child, and all tokens are taken. -/
def finish (a : Arena) (g : Grammar) : Outcome :=
  let result : Except ParseError (List Node) :=
    if !a.accepted then .error (.internal .stackUnderflow)
    else if a.current ≠ 0 || (startId? a.nodes).isNone then .error (.internal .unbalancedTree)
    else if !a.tokens.isExhausted then
      .error (a.tokens.unexpected (.terminal (g.nameOf endMarkId)))
    else .ok a.nodes
  ⟨result, a.tokens⟩

/-- One step: what the top of the stack asks for. -/
def step (g : Grammar) (table : PredictiveTable) (a : Arena) : Progress :=
  match a.stack with
  | [] => .stop (a.finish g)
  | entry :: stack =>
    let a := { a with stack := stack }
    match entry with
    | .ascend => a.ascend
    | .epsilon => .next (a.push epsilonId none)
    | .symbol s =>
      match g.symbol? s with
      | none => a.fail (.internal (.unknownSymbol s))
      | some .epsilon => .next (a.push epsilonId none)
      | some (.nonTerminal name _) => a.expand g table s name
      | some _ => a.consume g s

/-- At most `fuel` steps; `none` when the parser has not stopped by then. -/
def run (g : Grammar) (table : PredictiveTable) : Nat → Arena → Option Outcome
  | 0, _ => none
  | fuel + 1, a =>
    match a.step g table with
    | .next a => run g table fuel a
    | .stop outcome => some outcome

end Arena

end GrammarTables
