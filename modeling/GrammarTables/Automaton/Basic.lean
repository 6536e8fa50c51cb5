import GrammarTables.Automaton.State

/-!
# Automaton/Basic — the canonical LR(0) collection

States are found breadth first from the one known by the item in front of the start symbol, the
edges of a state in the order of their symbols.  A kernel that is already known leads to its state;
a new one gets the next number.
-/

namespace GrammarTables

/-- An LR(0) automaton; state 0 is the start. -/
structure Automaton where
  states : List State
deriving DecidableEq

/-- The number of the state where an automaton starts. -/
def Automaton.start (_ : Automaton) : Nat := 0

/-- The number of the state known by `kernel`, new states being put at the end. -/
def findState (g : Grammar) (states : List State) (kernel : List Item) : List State × Nat :=
  match states.findIdx? fun state => state.kernel = kernel with
  | some number => (states, number)
  | none => (states ++ [g.stateOf kernel], states.length)

/-- The edges to the given kernels, with the states that these add. -/
def findEdges (g : Grammar) (states : List State) :
    List (SymbolId × List Item) → List State × List (SymbolId × Nat)
  | [] => (states, [])
  | (s, kernel) :: rest =>
    let (states, number) := findState g states kernel
    let (states, edges) := findEdges g states rest
    (states, (s, number) :: edges)

/-- The states after the edges of number `number` and of later ones have been found. -/
def explore (g : Grammar) : Nat → Nat → List State → List State
  | 0, _, states => states
  | fuel + 1, number, states =>
    match states[number]? with
    | none => states
    | some state =>
      let (states, edges) := findEdges g states (g.successors state.items)
      explore g fuel (number + 1) (states.set number { state with edges := edges })

namespace Grammar

/-- The number of items that a kernel can hold. -/
def itemCount (g : Grammar) : Nat :=
  g.productions.foldr (fun p count => p.right.length + 1 + count) 2

/-- The LR(0) automaton.  There are no more kernels than sets of items. -/
def automaton (g : Grammar) : Automaton :=
  ⟨explore g (Nat.pow 2 g.itemCount) 0 [g.stateOf [Item.first g augmentedOrdinal]]⟩

end Grammar

end GrammarTables
