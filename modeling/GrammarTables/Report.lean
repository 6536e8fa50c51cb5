import GrammarTables.Report.ActionTable
import GrammarTables.Report.Sets
import GrammarTables.Report.Tree

/-!
# Report — everything that is reported of a grammar, and of a parse
-/

namespace GrammarTables

/-- What can be reported of a grammar. -/
inductive Report
  | productions
  | sets
  | predict
  | predictiveTable
  | automaton
  | actionTable
deriving DecidableEq

/-- A report in a format; names are written in LaTeX by `escape`.  The automaton has no LaTeX of its
own and is printed plainly. -/
def Report.render (report : Report) (format : Format) (g : Grammar)
    (escape : String → String := Text.Tex.escape) : Except GrammarError String :=
  match report with
  | productions =>
    let r := g.productionReport
    .ok (match format with
      | .plain => r.plain
      | .latex => r.latex escape
      | .json => r.json.compact)
  | sets => do
    let r ← g.setsReport
    return match format with
      | .plain => r.plain
      | .latex => r.latex escape
      | .json => r.json.compact
  | predict => do
    let r ← g.predictReport
    return match format with
      | .plain => r.plain
      | .latex => r.latex escape
      | .json => r.json.compact
  | predictiveTable => do
    let r ← g.predictiveReport
    return match format with
      | .plain => r.plain
      | .latex => r.latex escape
      | .json => r.json.compact
  | automaton =>
    let a := g.automaton
    .ok (match format with | .plain | .latex => a.plain g | .json => a.json.compact)
  | actionTable => do
    let t ← g.automaton.actionTable g
    return match format with
      | .plain => t.plain g
      | .latex => t.latex escape g
      | .json => t.json.compact

/-- The tree of a parse in a format; names are written in LaTeX by `escape`. -/
def ParseTree.render (t : ParseTree) (format : Format) (g : Grammar)
    (escape : String → String := Text.Tex.escape) : String :=
  match format with
  | .plain => t.plain g
  | .latex => t.latex escape g
  | .json => (t.json g).compact

end GrammarTables
