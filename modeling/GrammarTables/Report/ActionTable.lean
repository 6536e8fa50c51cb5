import GrammarTables.Automaton.ActionTable
import GrammarTables.Report.Automaton
import GrammarTables.Report.PredictiveTable

/-!
# Report/ActionTable — the SLR(1) table, spelled out

There is a row for each state and a column for each terminal, for the end mark and for each
non-terminal in the order of the names.
-/

namespace GrammarTables

open Text (Json)

namespace Action

/-- The short form. -/
def plain : Action → String
  | shift state => "s" ++ state.repr
  | reduce ordinal => "r" ++ ordinal.repr
  | accept => "acc"

/-- The action in a word. -/
def latex : Action → String
  | shift state => "shift " ++ state.repr
  | reduce ordinal => "reduce " ++ ordinal.repr
  | accept => "accept"

/-- An object named for the action, around its number if it has one. -/
def json : Action → Json
  | shift state => .obj [("Shift", .nat state)]
  | reduce ordinal => .obj [("Reduce", .nat ordinal)]
  | accept => .str "Accept"

end Action

/-- The non-terminals that get a column. -/
def Grammar.gotoColumns (g : Grammar) : List SymbolId :=
  g.nonTerminalsByName.map NonTerminal.index

namespace ActionTable

/-- The rows of both kinds, with the numbers of their states. -/
def numberedRows (table : ActionTable) : List (Nat × ActionRow × GotoRow) :=
  (table.actions.zip table.gotos).zipIdx.map fun (rows, state) => (state, rows)

/-- The actions on a literal. -/
def cellActions (row : ActionRow) (t : SymbolId) : List Action :=
  (Ascending.get? t row).getD []

/-- Where a non-terminal leads; nothing when it leads nowhere. -/
def gotoCell (row : GotoRow) (s : SymbolId) : String :=
  ((Ascending.get? s row).map Nat.repr).getD ""

/-- One aligned line for each state, under a head. -/
def plain (table : ActionTable) (g : Grammar) : String :=
  let header := "" :: g.spell (g.literalColumns ++ g.gotoColumns)
  Text.alignRows (header :: table.numberedRows.map fun (state, actions, gotos) =>
    state.repr ::
      (g.literalColumns.map fun t =>
        "; ".intercalate ((cellActions actions t).map Action.plain)) ++
      g.gotoColumns.map (gotoCell gotos))

/-- One row for each state, under a head; a cell with a conflict is red. -/
def latex (escape : String → String) (table : ActionTable) (g : Grammar) : String :=
  let columns := g.literalColumns ++ g.gotoColumns
  "\\begin\x7btabular\x7d\x7bc" ++ String.join (columns.map fun _ => "|l") ++
    "\x7d\n & \\multicolumn\x7b" ++ g.literalColumns.length.repr ++
    "\x7d\x7bc\x7d\x7baction\x7d & \\multicolumn\x7b" ++ g.gotoColumns.length.repr ++
    "\x7d\x7b|c\x7d\x7bgoto\x7d\\\\\n" ++
    texRow ("" :: (g.spell columns).map escape) ++ " \\\\\\hline\n" ++
    " \\\\\n".intercalate (table.numberedRows.map fun (state, actions, gotos) =>
      texRow (state.repr ::
        (g.literalColumns.map fun t =>
          let cell := cellActions actions t
          texCell cell.length ("; ".intercalate (cell.map Action.latex))) ++
        g.gotoColumns.map (gotoCell gotos))) ++
    "\n\\end\x7btabular\x7d"

/-- The rows of both kinds, keyed by the numbers of the symbols. -/
def json (table : ActionTable) : Json :=
  .obj [
    ("action", .arr (table.actions.map fun row =>
      .obj (row.map fun (t, cell) => (t.repr, .arr (cell.map Action.json))))),
    ("goto", .arr (table.gotos.map edgesJson))]

end ActionTable

end GrammarTables
