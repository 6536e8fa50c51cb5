/-!
# Text/Align — right-aligned columns

Widths are counted in characters (Unicode scalar values).  A column is as wide as its widest cell;
cells are padded on the left, joined by ` | `, and rows are joined by line ends.
-/

namespace GrammarTables.Text

/-- `s` with blanks before it, so that it has at least `width` characters. -/
def padLeft (width : Nat) (s : String) : String :=
  String.ofList (List.replicate (width - s.length) ' ') ++ s

/-- The larger of two widths, column by column; a column that only one side has is kept. -/
def widest : List Nat → List Nat → List Nat
  | [], bs => bs
  | as, [] => as
  | a :: as, b :: bs => max a b :: widest as bs

/-- The width of each column. -/
def columnWidths (rows : List (List String)) : List Nat :=
  rows.foldr (fun row widths => widest (row.map String.length) widths) []

/-- Every cell padded to the width of its column. -/
def alignRows (rows : List (List String)) : String :=
  "\n".intercalate (rows.map fun row =>
    " | ".intercalate (List.zipWith padLeft (columnWidths rows) row))

end GrammarTables.Text
