import GrammarTables.Grammar.Basic
import GrammarTables.Report.Format
import GrammarTables.Text.Align
import GrammarTables.Text.Json

/-!
# Report/Production — the productions, by left side
-/

namespace GrammarTables

open Text (Json padLeft)

/-- A left side with some of its right sides, each with its ordinal. -/
structure ProductionGroup where
  left : String
  rights : List (Nat × List String)
deriving DecidableEq

namespace ProductionGroup

/-- The right sides after the first: on lines of their own, or on the same line. -/
def plainRest (width : Nat) (multiline : Bool) (rights : List (Nat × List String)) : String :=
  String.join (rights.map fun (_, right) =>
    (if multiline then "\n" ++ padLeft width "" ++ "  | " else " | ") ++ " ".intercalate right)

/-- A rule as it is read from a grammar text, the left side padded to `width`. -/
def plain (width : Nat) (multiline : Bool) (group : ProductionGroup) : String :=
  match group.rights with
  | [] => ""
  | (_, right) :: rest =>
    padLeft width group.left ++ " -> " ++ " ".intercalate right ++ plainRest width multiline rest

/-- A rule in LaTeX, with or without the marks of an array's columns; names are written by
`escape`. -/
def latex (columns : Bool) (group : ProductionGroup)
    (escape : String → String := Text.Tex.escape) : String :=
  if group.rights.isEmpty then ""
  else
    escape group.left ++ (if columns then " & \\rightarrow &" else " \\rightarrow ") ++
      " \\mid ".intercalate (group.rights.map fun (_, right) => texSequence escape right)

/-- The left side, and each right side with its ordinal. -/
def json (group : ProductionGroup) : Json :=
  .obj [("left", .str group.left),
    ("rights", .arr (group.rights.map fun (ordinal, right) =>
      .arr [.nat ordinal, Json.strings right]))]

end ProductionGroup

/-- All productions of a grammar, in the order of their ordinals. -/
structure ProductionReport where
  groups : List ProductionGroup

/-- The groups with one more right side before them; it joins the first group if that has the same
left side. -/
def addToGroups (left : String) (right : Nat × List String) :
    List ProductionGroup → List ProductionGroup
  | [] => [⟨left, [right]⟩]
  | group :: groups =>
    if left = group.left then ⟨left, right :: group.rights⟩ :: groups
    else ⟨left, [right]⟩ :: group :: groups

/-- The productions of a grammar, by left side. -/
def Grammar.productionReport (g : Grammar) : ProductionReport :=
  ⟨g.productions.foldr
    (fun p groups => addToGroups (g.nameOf p.left) (p.ordinal, g.spell p.right) groups) []⟩

namespace ProductionReport

/-- One line for each production, with its ordinal. -/
def plain (report : ProductionReport) : String :=
  let width := (report.groups.map fun group => group.left.length).foldr max 0
  "\n".intercalate (report.groups.flatMap fun group =>
    group.rights.map fun (ordinal, right) =>
      "(" ++ ordinal.repr ++ ") " ++ padLeft width group.left ++ " -> " ++ " ".intercalate right)

/-- One line of an array for each left side. -/
def latex (escape : String → String) (report : ProductionReport) : String :=
  "\\\\\n".intercalate
    (["\\[\\begin\x7barray\x7d\x7bcll\x7d"] ++
      (report.groups.map fun group => group.latex true escape) ++ ["\\end\x7barray\x7d\\]"])

/-- One object for each left side. -/
def json (report : ProductionReport) : Json :=
  .obj [("productions", .arr (report.groups.map ProductionGroup.json))]

end ProductionReport

end GrammarTables
