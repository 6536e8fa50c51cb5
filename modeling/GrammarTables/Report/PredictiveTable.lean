import GrammarTables.Analysis.Sets
import GrammarTables.Report.Production

/-!
# Report/PredictiveTable — the LL(1) table with all of its conflicts

Each cell lists every production that is predicted there, so a conflict shows as a cell with more
than one entry.  There is a column for each terminal and for the end mark, and a row for each
non-terminal in the order of the names.
-/

namespace GrammarTables

open Text (Json)

/-- The LL(1) table of a grammar, spelled out. -/
structure PredictiveReport where
  columns : List String
  rows : List (String × List ProductionGroup)

/-- The literals that get a column. -/
def Grammar.literalColumns (g : Grammar) : List SymbolId :=
  g.terminals ++ [endMarkId]

/-- The alternatives of a non-terminal that are predicted on `t`, each with its ordinal. -/
def predictedOn (g : Grammar) (t : SymbolId)
    (alternatives : List (Production × List SymbolId)) : List (Nat × List String) :=
  (alternatives.filter fun (_, predict) => predict.contains t).map fun (p, _) =>
    (p.ordinal, g.spell p.right)

/-- The row of a non-terminal. -/
def predictiveRow (g : Grammar) (sets : Sets) (nt : NonTerminal) :
    Except GrammarError (String × List ProductionGroup) := do
  let alternatives ← (List.range nt.alternatives.length).mapM fun i => do
    let p ← g.productionOf nt.index i
    return (p, sets.predict g p.left p.right)
  return (nt.name, g.literalColumns.map fun t => ⟨nt.name, predictedOn g t alternatives⟩)

/-- The LL(1) table of a grammar, spelled out. -/
def Grammar.predictiveReport (g : Grammar) : Except GrammarError PredictiveReport := do
  let sets ← g.sets
  let rows ← g.nonTerminalsByName.mapM (predictiveRow g sets)
  return ⟨g.spell g.literalColumns, rows⟩

namespace PredictiveReport

/-- A cell shows the ordinals of its productions. -/
def plain (report : PredictiveReport) : String :=
  Text.alignRows (("" :: report.columns) :: report.rows.map fun (left, cells) =>
    left :: cells.map fun cell =>
      ", ".intercalate (cell.rights.map fun (ordinal, _) => ordinal.repr))

/-- A cell shows its productions, in red when there are several. -/
def latex (escape : String → String) (report : PredictiveReport) : String :=
  let header := "\\[\\begin\x7barray\x7d\x7bc" ++
    String.join (report.columns.map fun _ => "|l") ++ "\x7d\n"
  texRow (header :: report.columns.map fun name => "\\text\x7b" ++ escape name ++ "\x7d") ++
    "\\\\\\hline\n" ++
    "\\\\\n".intercalate (report.rows.map fun (left, cells) =>
      texRow (escape left :: cells.map fun cell =>
        texCell cell.rights.length (cell.latex false escape))) ++
    "\n\\end\x7barray\x7d\\]"

/-- The columns by name, and each row with its cells. -/
def json (report : PredictiveReport) : Json :=
  .obj [("terminals", Json.strings report.columns),
    ("rows", .arr (report.rows.map fun (left, cells) =>
      .arr [.str left, .arr (cells.map ProductionGroup.json)]))]

end PredictiveReport

end GrammarTables
