import GrammarTables.Analysis.Settle
import GrammarTables.Automaton.Item

/-!
# Automaton/State — item sets

A state is a set of items: its kernel, which the state is known by, and its extension, the items
with the dot in front that the kernel brings in.  A non-terminal after a dot brings in its
productions, and these bring in further ones.
-/

namespace GrammarTables

/-- A state of the automaton. -/
structure State where
  kernel : List Item
  extend : List Item
  /-- The state each symbol leads to, as a map. -/
  edges : List (SymbolId × Nat)
deriving DecidableEq

/-- The kernel, then the extension. -/
def State.items (state : State) : List Item :=
  state.kernel ++ state.extend

namespace Grammar

/-- The productions of the non-terminals in `lefts`. -/
def productionsOf (g : Grammar) (lefts : List SymbolId) : List Production :=
  g.productions.filter fun p => lefts.contains p.left

/-- The items with the dot in front of the productions of the non-terminals in `lefts`. -/
def firstItems (g : Grammar) (lefts : List SymbolId) : List Item :=
  (g.productionsOf lefts).map fun p => ⟨p.ordinal, skipEpsilon p.right 0⟩

/-- The non-terminal that a right side begins with, empty strings apart. -/
def leading? (g : Grammar) (right : List SymbolId) : Option SymbolId :=
  (right.find? fun s => s ≠ epsilonId).filter g.isNonTerminal

/-- One round for the non-terminals that those in `lefts` bring in. -/
def leftsRound (g : Grammar) (lefts : List SymbolId) : List SymbolId :=
  Ascending.insertAll ((g.productionsOf lefts).filterMap fun p => g.leading? p.right) lefts

/-- The non-terminals whose productions a kernel brings in.  Every round but the last adds a
symbol, so the rounds settle before their number exceeds that of the symbols. -/
def closureLefts (g : Grammar) (kernel : List Item) : List SymbolId :=
  let direct := Ascending.ofList (kernel.filterMap (Item.nextNonTerminal? g))
  (settle? g.leftsRound (g.symbols.length + 1) direct).getD direct

/-- The state known by `kernel`, its edges not yet found. -/
def stateOf (g : Grammar) (kernel : List Item) : State :=
  ⟨kernel, (g.firstItems (g.closureLefts kernel)).filter fun item => !kernel.contains item, []⟩

/-- The kernels that the symbols after the dots lead to, by symbol. -/
def successors (g : Grammar) (items : List Item) : List (SymbolId × List Item) :=
  items.foldl
    (fun kernels item =>
      match item.next? g with
      | none => kernels
      | some s =>
        Ascending.update s (fun kernel => Ascending.insert (item.advance g) (kernel.getD [])) kernels)
    []

end Grammar

end GrammarTables
