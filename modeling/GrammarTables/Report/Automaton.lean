import GrammarTables.Automaton.Basic
import GrammarTables.Report.Format
import GrammarTables.Text.Json

/-!
# Report/Automaton — the LR(0) automaton, spelled out

An item is printed as its production with a dot before the next symbol, or at the end.  The
production that leads to the start symbol has the name of the start symbol with a prime on its left.
-/

namespace GrammarTables

open Text (Json)

namespace Item

/-- The symbols of a right side, the first being number `i`, with a dot before number `position`. -/
def plainRight (g : Grammar) (position : Nat) : Nat → List SymbolId → String
  | i, [] => if position = i then " ." else ""
  | i, s :: rest =>
    " " ++ (if i = position then "." else "") ++ g.nameOf s ++ plainRight g position (i + 1) rest

/-- The name on the left of an item. -/
def leftName (g : Grammar) (item : Item) : String :=
  match g.itemLeft? item.ordinal with
  | some left => g.nameOf left
  | none => g.nameOf g.start ++ "'"

/-- The production with the dot. -/
def plain (g : Grammar) (item : Item) : String :=
  item.leftName g ++ " ->" ++ plainRight g item.position 0 (g.itemRight item.ordinal)

/-- The item as its two numbers. -/
def json (item : Item) : Json :=
  .obj [("ordinal", .nat item.ordinal), ("position", .nat item.position)]

end Item

/-- A map from numbers to numbers; the keys of an object are strings. -/
def edgesJson (edges : List (Nat × Nat)) : Json :=
  .obj (edges.map fun (key, value) => (key.repr, .nat value))

namespace State

/-- A part of a state under a line that separates it; nothing when there is nothing in it. -/
def plainPart (line : String) (entries : List String) : String :=
  if entries.isEmpty then "" else "\n" ++ line ++ "\n" ++ "\n".intercalate entries

/-- The kernel, then the extension and the edges, one entry on a line. -/
def plain (g : Grammar) (state : State) : String :=
  "\n".intercalate (state.kernel.map (Item.plain g)) ++
    plainPart "---" (state.extend.map (Item.plain g)) ++
    plainPart "===" (state.edges.map fun (s, target) =>
      "- " ++ g.nameOf s ++ " -> " ++ target.repr)

/-- Whether the grammar names the symbols on all edges. -/
def isOver (state : State) (g : Grammar) : Bool :=
  g.hasAll (state.edges.map (·.1))

/-- The state with its items and edges as numbers. -/
def json (state : State) : Json :=
  .obj [("kernel", .arr (state.kernel.map Item.json)),
    ("extend", .arr (state.extend.map Item.json)), ("edges", edgesJson state.edges)]

end State

namespace Automaton

/-- The states under their numbers, and the number of the start. -/
def plain (automaton : Automaton) (g : Grammar) : String :=
  "\n\n".intercalate (automaton.states.zipIdx.map fun (state, number) =>
    "I" ++ number.repr ++ "\n" ++ state.plain g) ++ "\n\nstart: " ++ automaton.start.repr

/-- The states in the order of their numbers, and the number of the start. -/
def json (automaton : Automaton) : Json :=
  .obj [("states", .arr (automaton.states.map State.json)), ("start", .nat automaton.start)]

end Automaton

end GrammarTables
