import GrammarTables.Grammar.Basic

/-!
# Automaton/Item — dotted productions

An item is a production with a dot in its right side, given by the ordinal and the number of
symbols before the dot.  Ordinal 0 is the production that leads from a new symbol to the start
symbol.  The dot never stands before the empty string (`skipEpsilon`), so the item of an empty
alternative is complete from the start.
-/

namespace GrammarTables

/-- A production with a dot in its right side. -/
structure Item where
  ordinal : Nat
  /-- The number of symbols before the dot. -/
  position : Nat
deriving DecidableEq

/-- Items are ordered by production and then by dot. -/
instance itemOrd : Ord Item :=
  ⟨compareLex (compareOn Item.ordinal) (compareOn Item.position)⟩

instance itemTransOrd : Std.TransOrd Item :=
  inferInstanceAs (Std.TransCmp (compareLex (compareOn Item.ordinal) (compareOn Item.position)))

instance itemLawfulEqOrd : Std.LawfulEqOrd Item where
  compare_self := Std.compare_self
  eq_of_compare {i j} h := by
    obtain ⟨ho, hp⟩ := compareLex_eq_eq.mp h
    cases i
    cases j
    exact congr (congrArg Item.mk (Nat.compare_eq_eq.mp ho)) (Nat.compare_eq_eq.mp hp)

/-- The ordinal of the production that leads to the start symbol. -/
abbrev augmentedOrdinal : Nat := 0

/-- The first place at or after `position` that no empty string stands at. -/
def skipEpsilon (right : List SymbolId) (position : Nat) : Nat :=
  position + ((right.drop position).takeWhile (· == epsilonId)).length

namespace Grammar

/-- The right side of an item's production. -/
def itemRight (g : Grammar) (ordinal : Nat) : List SymbolId :=
  if ordinal = augmentedOrdinal then [g.start]
  else ((g.production? ordinal).map Production.right).getD []

/-- The left side of an item's production; the production that leads to the start symbol has a left
side that is no symbol of the grammar. -/
def itemLeft? (g : Grammar) (ordinal : Nat) : Option SymbolId :=
  (g.production? ordinal).map Production.left

end Grammar

namespace Item

/-- The item with the dot in front. -/
def first (g : Grammar) (ordinal : Nat) : Item :=
  ⟨ordinal, skipEpsilon (g.itemRight ordinal) 0⟩

/-- The item with the dot moved over one symbol. -/
def advance (g : Grammar) (item : Item) : Item :=
  ⟨item.ordinal, skipEpsilon (g.itemRight item.ordinal) (item.position + 1)⟩

/-- The symbol after the dot. -/
def next? (g : Grammar) (item : Item) : Option SymbolId :=
  (g.itemRight item.ordinal)[item.position]?

/-- The non-terminal after the dot. -/
def nextNonTerminal? (g : Grammar) (item : Item) : Option SymbolId :=
  (item.next? g).filter g.isNonTerminal

end Item

end GrammarTables
