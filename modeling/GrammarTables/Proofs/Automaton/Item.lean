import GrammarTables.Automaton.Item
import GrammarTables.Automaton.Basic
import GrammarTables.Proofs.Grammar.WellFormed

/-!
# Proofs/Automaton/Item — dots in right sides

The dot skips empty strings, so what stands after it is the first visible symbol of the rest
(`getElem?_skipEpsilon`).  The items of a grammar, the dot not beyond the end, are as many as
`Grammar.itemCount` counts (`Grammar.length_items`).
-/

namespace GrammarTables

/-! ## Skipping empty strings -/

section SkipEpsilon

variable {right before rest : List SymbolId} {n : Nat} {s : SymbolId}

/-- **The dot stands before the first visible symbol.** -/
theorem getElem?_skipEpsilon (right : List SymbolId) (n : Nat) :
    right[skipEpsilon right n]? = (right.drop n).find? fun s => s ≠ epsilonId := by
  rw [skipEpsilon, ← List.getElem?_drop]
  generalize right.drop n = w
  induction w with
  | nil => rfl
  | cons s w ih =>
    by_cases hs : s = epsilonId
    · simpa [hs] using ih
    · simp [hs]

/-- The dot does not get beyond the end. -/
theorem skipEpsilon_le (h : n ≤ right.length) : skipEpsilon right n ≤ right.length := by
  have hlength := (List.takeWhile_sublist (l := right.drop n) (· == epsilonId)).length_le
  rw [List.length_drop] at hlength
  rw [skipEpsilon]
  omega

/-- Where no empty string stands, the dot stays. -/
theorem skipEpsilon_eq_self (h : right[n]? ≠ some epsilonId) : skipEpsilon right n = n := by
  rw [← List.head?_drop] at h
  rw [skipEpsilon]
  cases hdrop : right.drop n with
  | nil => rfl
  | cons s rest =>
    rw [hdrop, List.head?_cons, ne_eq, Option.some.injEq] at h
    rw [List.takeWhile_cons_of_neg (by simpa using h)]
    rfl

/-- An empty string is passed. -/
theorem skipEpsilon_eq_succ (h : right[n]? = some epsilonId) :
    skipEpsilon right n = skipEpsilon right (n + 1) := by
  obtain ⟨hlt, hget⟩ := List.getElem?_eq_some_iff.mp h
  rw [skipEpsilon, skipEpsilon, List.drop_eq_getElem_cons hlt, hget,
    List.takeWhile_cons_of_pos (by simp), List.length_cons]
  omega

/-- At the end there is nothing to skip. -/
theorem skipEpsilon_length : skipEpsilon right right.length = right.length :=
  skipEpsilon_eq_self (by simp)

/-- Before a visible symbol the dot stays; this and the next lemma are for a right side that is
split at the dot. -/
theorem skipEpsilon_of_ne (hs : s ≠ epsilonId) :
    skipEpsilon (before ++ s :: rest) before.length = before.length :=
  skipEpsilon_eq_self (by simpa using hs)

/-- Before an empty string the dot moves on to the next place. -/
theorem skipEpsilon_of_epsilon :
    skipEpsilon (before ++ epsilonId :: rest) before.length =
      skipEpsilon (before ++ epsilonId :: rest) (before.length + 1) :=
  skipEpsilon_eq_succ (by simp)

end SkipEpsilon

/-! ## The production of an item -/

namespace Grammar

variable {g : Grammar} {p : Production}

/-- The item that the automaton starts from has the start symbol alone as its right side. -/
theorem itemRight_augmented : g.itemRight augmentedOrdinal = [g.start] :=
  rfl

section

variable (hg : g.WellFormed)

include hg

/-- Ordinals start above that of the augmented production, so an item with the ordinal of a
production has its right side. -/
theorem WellFormed.itemRight_ordinal (hp : p ∈ g.productions) :
    g.itemRight p.ordinal = p.right := by
  rw [itemRight, if_neg (hg.ordinal_ne_augmented hp), hg.production?_ordinal hp]
  rfl

theorem WellFormed.itemLeft?_ordinal (hp : p ∈ g.productions) :
    g.itemLeft? p.ordinal = some p.left := by
  rw [itemLeft?, hg.production?_ordinal hp]
  rfl

/-- The augmented production has no left side: it is accepted and not reduced. -/
theorem WellFormed.itemLeft?_augmented : g.itemLeft? augmentedOrdinal = none := by
  rw [itemLeft?, Option.map_eq_none_iff, production?, List.find?_eq_none]
  exact fun p hp h => hg.ordinal_ne_augmented hp (of_decide_eq_true h)

/-- The first item of a production has the dot before its first visible symbol. -/
theorem WellFormed.first_ordinal (hp : p ∈ g.productions) :
    Item.first g p.ordinal = ⟨p.ordinal, skipEpsilon p.right 0⟩ := by
  rw [Item.first, hg.itemRight_ordinal hp]

end

/-- The start symbol is visible, so the dot in front of it stays there. -/
theorem WellFormed.first_augmented (hg : g.WellFormed) :
    Item.first g augmentedOrdinal = ⟨augmentedOrdinal, 0⟩ := by
  have hne : g.start ≠ epsilonId := hg.ne_epsilon_of_isNonTerminal hg.start_nonTerminal
  rw [Item.first, itemRight_augmented]
  exact congrArg (Item.mk augmentedOrdinal)
    (skipEpsilon_eq_self fun h => hne (Option.some.inj h))

/-- The items of a production. -/
def dots (ordinal : Nat) (right : List SymbolId) : List Item :=
  (List.range (right.length + 1)).map (Item.mk ordinal)

/-- The items of a grammar. -/
def items (g : Grammar) : List Item :=
  g.productions.foldr (fun p items => dots p.ordinal p.right ++ items)
    (dots augmentedOrdinal [g.start])

/-- **There are as many items as the bound of the exploration counts.** -/
theorem length_items : g.items.length = g.itemCount := by
  rw [items, itemCount]
  induction g.productions with
  | nil => rfl
  | cons p ps ih =>
    rw [List.foldr_cons, List.length_append, ih, List.foldr_cons, dots, List.length_map,
      List.length_range]

/-- The dot can stand before each symbol of a right side and at its end. -/
theorem mem_dots {ordinal : Nat} {right : List SymbolId} {i : Item} :
    i ∈ dots ordinal right ↔ i.ordinal = ordinal ∧ i.position ≤ right.length := by
  rw [dots, List.mem_map]
  constructor
  · rintro ⟨n, hn, rfl⟩
    exact ⟨rfl, Nat.le_of_lt_succ (List.mem_range.mp hn)⟩
  · rintro ⟨rfl, hi⟩
    exact ⟨i.position, List.mem_range.mpr (Nat.lt_succ_of_le hi), rfl⟩

/-- The items are those of the productions, and those of the augmented one. -/
theorem mem_items_iff_dots {i : Item} : i ∈ g.items ↔
    (∃ p ∈ g.productions, i ∈ dots p.ordinal p.right) ∨ i ∈ dots augmentedOrdinal [g.start] := by
  rw [items]
  induction g.productions with
  | nil => simp
  | cons p ps ih =>
    simp only [List.foldr_cons, List.mem_append, ih, List.mem_cons, exists_eq_or_imp, or_assoc]

/-- **An item has the ordinal of a production, and its dot is not beyond the end.** -/
theorem WellFormed.mem_items (hg : g.WellFormed) {i : Item} : i ∈ g.items ↔
    ((∃ p ∈ g.productions, i.ordinal = p.ordinal) ∨ i.ordinal = augmentedOrdinal) ∧
      i.position ≤ (g.itemRight i.ordinal).length := by
  rw [mem_items_iff_dots, or_and_right]
  refine or_congr ⟨?_, ?_⟩ ⟨?_, ?_⟩
  · rintro ⟨p, hp, hi⟩
    obtain ⟨hordinal, hposition⟩ := mem_dots.mp hi
    rw [hordinal, hg.itemRight_ordinal hp]
    exact ⟨⟨p, hp, rfl⟩, hposition⟩
  · rintro ⟨⟨p, hp, hordinal⟩, hposition⟩
    rw [hordinal, hg.itemRight_ordinal hp] at hposition
    exact ⟨p, hp, mem_dots.mpr ⟨hordinal, hposition⟩⟩
  · intro hi
    obtain ⟨hordinal, hposition⟩ := mem_dots.mp hi
    exact ⟨hordinal, by rwa [hordinal]⟩
  · rintro ⟨hordinal, hposition⟩
    rw [hordinal] at hposition
    exact mem_dots.mpr ⟨hordinal, hposition⟩

variable {i : Item} {s : SymbolId} (hg : g.WellFormed)

include hg

/-- The kernel of the first state is an item of the grammar. -/
theorem WellFormed.mem_items_augmented : Item.first g augmentedOrdinal ∈ g.items :=
  hg.mem_items.mpr ⟨Or.inr rfl, skipEpsilon_le (Nat.zero_le _)⟩

/-- So are the items that a closure adds. -/
theorem WellFormed.mem_items_first (hp : p ∈ g.productions) :
    Item.first g p.ordinal ∈ g.items :=
  hg.mem_items.mpr ⟨Or.inl ⟨p, hp, rfl⟩, skipEpsilon_le (Nat.zero_le _)⟩

/-- **Moving the dot over a symbol gives an item of the grammar.** -/
theorem WellFormed.mem_items_advance (hi : i ∈ g.items) (hs : i.next? g = some s) :
    i.advance g ∈ g.items :=
  hg.mem_items.mpr ⟨(hg.mem_items.mp hi).1, skipEpsilon_le (List.getElem?_eq_some_iff.mp hs).1⟩

end Grammar

end GrammarTables
