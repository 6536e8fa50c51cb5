import GrammarTables.Token

/-!
# Predictive/Tree — parse trees

A tree is a leaf for the empty string, a leaf for a literal with the token it matched, or a branch
for a non-terminal.  A `ParseTree` puts a root without symbol above its trees.  `nodes` numbers the
root 0 and the nodes below it in the order in which a walk from the left first meets them, each
before its children; `childIds` finds the numbers of the children from the sizes of their trees.
-/

namespace GrammarTables

/-- A parse tree below one symbol. -/
inductive Tree
  | epsilon
  | literal (symbol : SymbolId) (token : Token)
  | branch (symbol : SymbolId) (children : List Tree)

namespace Tree

/-- The symbol of the topmost node. -/
def symbol : Tree → SymbolId
  | epsilon => epsilonId
  | literal symbol _ => symbol
  | branch symbol _ => symbol

mutual

/-- The number of nodes. -/
def size : Tree → Nat
  | epsilon => 1
  | literal .. => 1
  | branch _ children => forestSize children + 1

/-- The number of nodes of several trees. -/
def forestSize : List Tree → Nat
  | [] => 0
  | t :: ts => size t + forestSize ts

end

mutual

/-- The symbols of a tree. -/
def symbols : Tree → List SymbolId
  | epsilon => [epsilonId]
  | literal symbol _ => [symbol]
  | branch symbol children => symbol :: forestSymbols children

/-- The symbols of several trees. -/
def forestSymbols : List Tree → List SymbolId
  | [] => []
  | t :: ts => symbols t ++ forestSymbols ts

end

end Tree

/-- The trees that a parse builds, below a root without symbol. -/
structure ParseTree where
  trees : List Tree

/-- A node of a numbered tree. -/
structure Node where
  /-- Only the root has none. -/
  symbol : Option SymbolId
  /-- Only the root has none. -/
  parent : Option Nat
  /-- The token that a literal matched. -/
  token : Option Token
  children : List Nat
deriving DecidableEq

/-- The numbers of neighbouring trees, when the first of them has the number `id`. -/
def childIds (id : Nat) : List Tree → List Nat
  | [] => []
  | t :: ts => id :: childIds (id + t.size) ts

mutual

/-- The nodes of a tree in the order of their numbers, when the tree has the number `id`. -/
def Tree.nodes (parent id : Nat) : Tree → List Node
  | .epsilon => [⟨some epsilonId, some parent, none, []⟩]
  | .literal symbol token => [⟨some symbol, some parent, some token, []⟩]
  | .branch symbol children =>
    ⟨some symbol, some parent, none, childIds (id + 1) children⟩ ::
      forestNodes id (id + 1) children

/-- The nodes of neighbouring trees, when the first of them has the number `id`. -/
def forestNodes (parent id : Nat) : List Tree → List Node
  | [] => []
  | t :: ts => t.nodes parent id ++ forestNodes parent (id + t.size) ts

end

namespace ParseTree

/-- The tree of the start symbol. -/
def start? (t : ParseTree) : Option Tree :=
  t.trees.head?

/-- The nodes in the order of their numbers, the root being number 0. -/
def nodes (t : ParseTree) : List Node :=
  ⟨none, none, none, childIds 1 t.trees⟩ :: forestNodes 0 1 t.trees

/-- The number of nodes, the root among them. -/
def size (t : ParseTree) : Nat :=
  Tree.forestSize t.trees + 1

/-- Whether there is no node below the root. -/
def isEmpty (t : ParseTree) : Bool :=
  t.trees.isEmpty

/-- The symbols of the nodes below the root. -/
def symbols (t : ParseTree) : List SymbolId :=
  Tree.forestSymbols t.trees

end ParseTree

/-! ## Sizes -/

mutual

/-- A tree takes up as many numbers as it has nodes, so its right neighbour starts right after
it. -/
theorem Tree.length_nodes {parent id : Nat} : ∀ t : Tree, (t.nodes parent id).length = t.size
  | .epsilon => rfl
  | .literal .. => rfl
  | .branch _ children => congrArg (· + 1) (length_forestNodes children)

theorem length_forestNodes {parent id : Nat} :
    ∀ ts : List Tree, (forestNodes parent id ts).length = Tree.forestSize ts
  | [] => rfl
  | t :: ts => by
    rw [forestNodes, List.length_append, Tree.length_nodes t, length_forestNodes ts,
      Tree.forestSize]

end

/-- There are as many numbers as nodes. -/
theorem ParseTree.length_nodes (t : ParseTree) : t.nodes.length = t.size :=
  congrArg (· + 1) (length_forestNodes t.trees)

end GrammarTables
