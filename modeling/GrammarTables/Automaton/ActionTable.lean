import GrammarTables.Analysis.Sets
import GrammarTables.Automaton.Basic

/-!
# Automaton/ActionTable — the SLR(1) table

In each state and on each literal the table lists every action that applies: the shift along an
edge, the reductions by the complete items whose left side can be followed by the literal, and
acceptance.  A second table says where the non-terminals lead.
-/

namespace GrammarTables

/-- What a parser can do in a state. -/
inductive Action
  /-- Take the token and go to this state. -/
  | shift (state : Nat)
  /-- Replace the right side of the production with this ordinal by its left side. -/
  | reduce (ordinal : Nat)
  | accept
deriving DecidableEq

/-- The actions of one state on each literal, as a map. -/
abbrev ActionRow := List (SymbolId × List Action)

/-- Where the non-terminals lead from one state, as a map. -/
abbrev GotoRow := List (SymbolId × Nat)

/-- An SLR(1) table, one row of each kind for every state. -/
structure ActionTable where
  actions : List ActionRow
  gotos : List GotoRow
deriving DecidableEq

/-- A cell with more than one action. -/
structure ActionConflict where
  state : Nat
  terminal : String
  actions : List Action
deriving DecidableEq

namespace ActionRow

/-- The row with `action` at the end of the cell of `s`. -/
def push (row : ActionRow) (s : SymbolId) (action : Action) : ActionRow :=
  Ascending.update s (fun cell => cell.getD [] ++ [action]) row

/-- The row with `action` in the cell of `s`. -/
def put (row : ActionRow) (s : SymbolId) (action : Action) : ActionRow :=
  Ascending.update s
    (fun cell =>
      let cell := cell.getD []
      if cell.contains action then cell else cell ++ [action])
    row

end ActionRow

/-- The row with the shifts along the edges. -/
def shiftRow (g : Grammar) (state : State) : ActionRow :=
  (state.edges.filter fun edge => !g.isNonTerminal edge.1).foldl
    (fun row edge => ActionRow.push row edge.1 (.shift edge.2)) []

/-- The row with what an item that is complete allows: acceptance for the production that leads to
the start symbol, and otherwise a reduction on every literal that can come after the left side. -/
def addItem (g : Grammar) (sets : Sets) (row : ActionRow) (item : Item) : ActionRow :=
  match item.next? g, g.itemLeft? item.ordinal with
  | some _, _ => row
  | none, none => row.push endMarkId .accept
  | none, some left =>
    (sets.followOf left).foldl (fun row t => ActionRow.put row t (.reduce item.ordinal)) row

/-- The actions of a state. -/
def actionRow (g : Grammar) (sets : Sets) (state : State) : ActionRow :=
  state.items.foldl (addItem g sets) (shiftRow g state)

/-- Where the non-terminals lead from a state. -/
def gotoRow (g : Grammar) (state : State) : GotoRow :=
  state.edges.filter fun edge => g.isNonTerminal edge.1

/-- The SLR(1) table of an automaton. -/
def Automaton.actionTable (automaton : Automaton) (g : Grammar) :
    Except GrammarError ActionTable := do
  let sets ← g.sets
  return ⟨automaton.states.map (actionRow g sets), automaton.states.map (gotoRow g)⟩

namespace ActionTable

/-- Whether no cell has more than one action. -/
def isSLR1 (table : ActionTable) : Bool :=
  table.actions.all fun row => row.all fun cell => cell.2.length ≤ 1

/-- The cells with more than one action, by state and then by literal. -/
def conflicts (table : ActionTable) (g : Grammar) : List ActionConflict :=
  table.actions.zipIdx.flatMap fun (row, state) =>
    (row.filter fun cell => 1 < cell.2.length).map fun cell => ⟨state, g.nameOf cell.1, cell.2⟩

end ActionTable

end GrammarTables
