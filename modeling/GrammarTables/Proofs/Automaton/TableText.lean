import GrammarTables.Proofs.Automaton.Cells
import GrammarTables.Proofs.Grammar.Printing
import GrammarTables.Proofs.Predictive.Report
import GrammarTables.Proofs.Text.Align
import GrammarTables.Proofs.Text.Json
import GrammarTables.Report.ActionTable

/-!
# Proofs/Automaton/TableText — the plain text of an SLR(1) table tells the table

A table is printed as rows of cells, aligned under a head of names.  Three inputs.

* `Text.alignRows_inj` — the rows are told by the text.  The names in the head may have bars in
  them, but a loaded grammar has no name with a line end (`Loads.not_newline_nameOf`).
* `Action.plainCell_inj` — a cell tells its actions in their order: each begins with a letter, and
  only a semicolon separates them.
* `ActionTable.Fits` — every key of a row has a column, and no list of actions is empty, so that an
  empty cell means that there is no entry.
-/

namespace GrammarTables

open Ascending

variable {c : Char} {g : Grammar} {text : String} {rules : List Rule} {s t : SymbolId}
  {a b : Action} {actions actions' : List Action} {table table' : ActionTable}

/-! ## The names in the head -/

/-- **No column of a loaded grammar is named with a line end.** -/
theorem Loads.not_newline_nameOf (h : Loads text rules g)
    (hs : s ∈ g.literalColumns ++ g.gotoColumns) : '\n' ∉ (g.nameOf s).toList := by
  have hwell := h.built.wellFormed
  have of_isName {name : String} (hname : IsName name) : '\n' ∉ name.toList := fun hmem =>
    hname.not_blank '\n' hmem (by decide)
  rw [Grammar.literalColumns, List.mem_append, List.mem_append, List.mem_singleton] at hs
  rcases hs with (hs | rfl) | hs
  · have hterminal := (List.mem_filter.mp hs).2
    obtain ⟨⟨entry, hentry, names, hnames, hname⟩, -⟩ :=
      (h.spelledOut.terminal_iff (g.nameOf s)).mp ⟨s, hterminal, rfl⟩
    exact of_isName ((h.writable entry hentry).isRightName names hnames _ hname).toIsName
  · rw [hwell.nameOf_endMark]
    decide
  · obtain ⟨nt, hnt, rfl⟩ := List.mem_map.mp hs
    have hnt := Ascending.mem_sortBy.mp hnt
    rw [nameOf_index_of_mem hnt]
    exact of_isName (h.writable _ (List.mem_map_of_mem hnt)).isName

/-! ## Cells -/

theorem isDigit_of_mem_repr {n : Nat} (h : c ∈ n.repr.toList) : c.isDigit :=
  Nat.isDigit_of_mem_toDigits (by decide) le_rfl (Nat.toList_repr ▸ h)

theorem eq_of_toList_repr_eq {m n : Nat} (h : m.repr.toList = n.repr.toList) : m = n := by
  have hends : Text.Json.Ends [] := by simp [Text.Json.Ends]
  exact (Text.Json.nat_append_inj hends hends (by rw [List.append_nil, List.append_nil, h])).1

/-- Letters and digits, with blanks and semicolons between them. -/
theorem isCell_of_isAlphanum {text : String}
    (h : ∀ c ∈ text.toList, c.isAlphanum ∨ c = ';' ∨ c = ' ')
    (hhead : ∀ c ∈ text.toList.head?, c.isAlphanum) : Text.IsCell text := by
  constructor
  case not_newline => exact fun hmem => absurd (h _ hmem) (by decide)
  case not_bar => exact fun hmem => absurd (h _ hmem) (by decide)
  case head?_ne => exact fun heq => absurd (hhead _ heq) (by decide)

theorem isCell_repr (n : Nat) : Text.IsCell n.repr := by
  have halphanum {c : Char} (hc : c ∈ n.repr.toList) : c.isAlphanum := by
    rw [Char.isAlphanum, isDigit_of_mem_repr hc, Bool.or_true]
  exact isCell_of_isAlphanum (fun c hc => Or.inl (halphanum hc))
    fun c hc => halphanum (List.mem_of_head? hc)

theorem isCell_gotoCell (row : GotoRow) (s : SymbolId) :
    Text.IsCell (ActionTable.gotoCell row s) := by
  rw [ActionTable.gotoCell]
  cases get? s row with
  | none => exact isCell_of_isAlphanum (by simp) (by simp)
  | some state => exact isCell_repr state

namespace Action

/-- An action is written as a letter, then letters and digits. -/
theorem exists_plain_eq_cons (a : Action) :
    ∃ first rest, a.plain.toList = first :: rest ∧ ∀ c ∈ first :: rest, c.isAlphanum := by
  have digits (n : Nat) : ∀ c ∈ n.repr.toList, c.isAlphanum := fun c hc => by
    rw [Char.isAlphanum, isDigit_of_mem_repr hc, Bool.or_true]
  cases a with
  | shift state =>
    exact ⟨'s', state.repr.toList, by simp [plain], List.forall_mem_cons.mpr ⟨rfl, digits state⟩⟩
  | reduce ordinal =>
    exact ⟨'r', ordinal.repr.toList, by simp [plain],
      List.forall_mem_cons.mpr ⟨rfl, digits ordinal⟩⟩
  | accept =>
    have hall : ['a', 'c', 'c'].all Char.isAlphanum := rfl
    exact ⟨'a', ['c', 'c'], rfl, List.all_eq_true.mp hall⟩

/-- **An action is told by its short form.** -/
theorem toList_plain_inj (h : a.plain.toList = b.plain.toList) : a = b := by
  cases a with
  | shift state =>
    cases b with
    | shift state' => exact congrArg shift (eq_of_toList_repr_eq (by simpa [plain] using h))
    | reduce ordinal => simp [plain] at h
    | accept => simp [plain] at h
  | reduce ordinal =>
    cases b with
    | shift state => simp [plain] at h
    | reduce ordinal' => exact congrArg reduce (eq_of_toList_repr_eq (by simpa [plain] using h))
    | accept => simp [plain] at h
  | accept =>
    cases b with
    | shift state => simp [plain] at h
    | reduce ordinal => simp [plain] at h
    | accept => rfl

/-- The actions of a cell, as they are printed. -/
def plainCell (actions : List Action) : String :=
  "; ".intercalate (actions.map plain)

theorem toList_plainCell (actions : List Action) : (plainCell actions).toList =
    [';', ' '].intercalate (actions.map fun a => a.plain.toList) := by
  rw [plainCell, String.toList_intercalate, List.map_map]
  rfl

theorem isCell_plainCell (actions : List Action) : Text.IsCell (plainCell actions) := by
  refine isCell_of_isAlphanum (fun c hc => ?_) fun c hc => ?_
  · rw [toList_plainCell] at hc
    rcases Text.of_mem_intercalate hc with hc | ⟨part, hpart, hc⟩
    · exact Or.inr (by simpa using hc)
    · obtain ⟨a, -, rfl⟩ := List.mem_map.mp hpart
      obtain ⟨first, rest, hplain, halphanum⟩ := exists_plain_eq_cons a
      exact Or.inl (halphanum c (hplain ▸ hc))
  · rw [toList_plainCell] at hc
    cases actions with
    | nil => simp at hc
    | cons a actions =>
      obtain ⟨first, rest, hplain, halphanum⟩ := exists_plain_eq_cons a
      have hfirst : c = first := by
        cases actions <;> simpa [hplain, eq_comm] using hc
      exact hfirst ▸ halphanum first List.mem_cons_self

/-- **A cell tells its actions, in their order.** -/
theorem plainCell_inj (h : plainCell actions = plainCell actions') : actions = actions' := by
  have not_semicolon (actions : List Action) :
      ∀ part ∈ actions.map fun a => a.plain.toList, ';' ∉ part := by
    intro part hpart hmem
    obtain ⟨a, -, rfl⟩ := List.mem_map.mp hpart
    obtain ⟨first, rest, hplain, halphanum⟩ := exists_plain_eq_cons a
    exact absurd (halphanum ';' (hplain ▸ hmem)) (by decide)
  -- only a cell without actions is blank
  have eq_nil_iff (actions : List Action) : actions = [] ↔ plainCell actions = "" := by
    cases actions with
    | nil => exact iff_of_true rfl rfl
    | cons a actions =>
      obtain ⟨first, rest, hplain, -⟩ := exists_plain_eq_cons a
      refine iff_of_false (List.cons_ne_nil _ _) fun hblank => ?_
      have hchars := congrArg String.toList hblank
      rw [toList_plainCell] at hchars
      cases actions <;> simp [hplain] at hchars
  have hchars := congrArg String.toList h
  rw [toList_plainCell, toList_plainCell] at hchars
  have hnil : actions.map (fun a => a.plain.toList) = [] ↔
      actions'.map (fun a => a.plain.toList) = [] := by
    rw [List.map_eq_nil_iff, List.map_eq_nil_iff, eq_nil_iff, h, eq_nil_iff]
  have hparts := Text.intercalate_inj List.not_mem_nil (not_semicolon actions)
    (not_semicolon actions') hnil hchars
  exact Text.eq_of_map_eq_map (fun _ _ _ _ heq => toList_plain_inj heq) hparts

end Action

namespace ActionTable

theorem gotoCell_inj {gotos gotos' : GotoRow} (h : gotoCell gotos s = gotoCell gotos' s) :
    get? s gotos = get? s gotos' := by
  have hchars := congrArg String.toList h
  have repr_ne_nil (n : Nat) : n.repr.toList ≠ [] := Nat.toList_repr ▸ Nat.toDigits_ne_nil
  rw [gotoCell, gotoCell] at hchars
  cases hstate : get? s gotos with
  | none =>
    cases hstate' : get? s gotos' with
    | none => rfl
    | some state' =>
      rw [hstate, hstate'] at hchars
      exact absurd hchars.symm (repr_ne_nil state')
  | some state =>
    cases hstate' : get? s gotos' with
    | none =>
      rw [hstate, hstate'] at hchars
      exact absurd hchars (repr_ne_nil state)
    | some state' =>
      rw [hstate, hstate'] at hchars
      rw [eq_of_toList_repr_eq hchars]

/-! ## Rows -/

/-- A table over a grammar: maps from its literals to actions and from its non-terminals to states,
one of each kind for every state, and no list of actions is empty. -/
structure Fits (table : ActionTable) (g : Grammar) : Prop where
  length_eq : table.actions.length = table.gotos.length
  actions_ascending : ∀ row ∈ table.actions, HasAscendingKeys row
  isLiteral : ∀ row ∈ table.actions, ∀ cell ∈ row, g.isLiteral cell.1
  ne_nil : ∀ row ∈ table.actions, ∀ cell ∈ row, cell.2 ≠ []
  gotos_ascending : ∀ gotos ∈ table.gotos, HasAscendingKeys gotos
  isNonTerminal : ∀ gotos ∈ table.gotos, ∀ entry ∈ gotos, g.isNonTerminal entry.1

/-- **The table of an automaton fits its grammar.** -/
theorem Exact.fits (h : table.Exact g g.automaton) : table.Fits g where
  length_eq := h.length_actions.trans h.length_gotos.symm
  actions_ascending row hrow := (h.clean row hrow).hasAscendingKeys
  isLiteral := h.isLiteral
  ne_nil row hrow := (h.clean row hrow).ne_nil
  gotos_ascending := h.hasAscendingKeys
  isNonTerminal := h.isNonTerminal

/-- The cells of the row of a state. -/
def plainRow (g : Grammar) (entry : Nat × ActionRow × GotoRow) : List String :=
  (entry.1.repr :: g.literalColumns.map fun t => Action.plainCell (cellActions entry.2.1 t)) ++
    g.gotoColumns.map (gotoCell entry.2.2)

/-- The head of the table. -/
def plainHead (g : Grammar) : List String :=
  "" :: g.spell (g.literalColumns ++ g.gotoColumns)

theorem plain_eq (table : ActionTable) (g : Grammar) :
    table.plain g = Text.alignRows (plainHead g :: table.numberedRows.map (plainRow g)) :=
  rfl

/-- There are as many cells in every row. -/
theorem length_eq_of_mem (g : Grammar) (table : ActionTable) :
    ∀ row ∈ plainHead g :: table.numberedRows.map (plainRow g),
      row.length = (plainHead g).length := by
  refine List.forall_mem_cons.mpr ⟨rfl, fun row hrow => ?_⟩
  obtain ⟨entry, -, rfl⟩ := List.mem_map.mp hrow
  simp [plainRow, plainHead, Grammar.spell, Nat.add_right_comm]

theorem isRow_plainRow (g : Grammar) (entry : Nat × ActionRow × GotoRow) :
    Text.IsRow (plainRow g entry) := by
  refine ⟨by simp [plainRow], fun text htext => ?_⟩
  rw [plainRow, List.cons_append, List.mem_cons, List.mem_append] at htext
  rcases htext with rfl | htext | htext
  · exact isCell_repr entry.1
  · obtain ⟨t, -, rfl⟩ := List.mem_map.mp htext
    exact Action.isCell_plainCell _
  · obtain ⟨s, -, rfl⟩ := List.mem_map.mp htext
    exact isCell_gotoCell _ s

theorem isRow_of_mem (g : Grammar) (table : ActionTable) :
    ∀ row ∈ table.numberedRows.map (plainRow g), Text.IsRow row := by
  intro row hrow
  obtain ⟨entry, -, rfl⟩ := List.mem_map.mp hrow
  exact isRow_plainRow g entry

theorem mem_gotoColumns : s ∈ g.gotoColumns ↔ g.isNonTerminal s := by
  rw [Grammar.gotoColumns, List.mem_map]
  constructor
  · rintro ⟨nt, hnt, rfl⟩
    exact Grammar.isNonTerminal_index (Ascending.mem_sortBy.mp hnt)
  · intro hs
    obtain ⟨name, alternatives, hs⟩ := Grammar.isNonTerminal_iff.mp hs
    exact ⟨⟨s, name, alternatives⟩, Ascending.mem_sortBy.mpr (mem_nonTerminalsOf.mpr hs), rfl⟩

/-- An empty list of actions stands for no entry. -/
theorem get?_eq_of_cellActions_eq {row row' : ActionRow} (hrow : ∀ cell ∈ row, cell.2 ≠ [])
    (hrow' : ∀ cell ∈ row', cell.2 ≠ []) (h : cellActions row t = cellActions row' t) :
    get? t row = get? t row' := by
  rw [cellActions, cellActions] at h
  cases hcell : get? t row with
  | none =>
    cases hcell' : get? t row' with
    | none => rfl
    | some actions' =>
      rw [hcell, hcell'] at h
      exact absurd h.symm (hrow' _ (mem_of_get?_eq_some hcell'))
  | some actions =>
    cases hcell' : get? t row' with
    | none =>
      rw [hcell, hcell'] at h
      exact absurd h (hrow _ (mem_of_get?_eq_some hcell))
    | some actions' =>
      rw [hcell, hcell'] at h
      exact congrArg some h

theorem of_mem_numberedRows {entry : Nat × ActionRow × GotoRow} (h : entry ∈ table.numberedRows) :
    entry.2.1 ∈ table.actions ∧ entry.2.2 ∈ table.gotos := by
  rw [numberedRows, List.mem_map] at h
  obtain ⟨⟨rows, state⟩, hmem, rfl⟩ := h
  exact List.of_mem_zip (List.mem_of_getElem? (List.mem_zipIdx_iff_getElem?.mp hmem))

section Told

variable (hg : g.WellFormed) (h : table.Fits g) (h' : table'.Fits g)

include hg h

theorem Fits.get?_actions_eq_none {row : ActionRow} (hrow : row ∈ table.actions)
    (ht : t ∉ g.literalColumns) : get? t row = none :=
  Option.eq_none_iff_forall_ne_some.mpr fun _ hcell =>
    ht (hg.mem_literalColumns.mpr (h.isLiteral row hrow _ (mem_of_get?_eq_some hcell)))

omit hg in
theorem Fits.get?_gotos_eq_none {gotos : GotoRow} (hgotos : gotos ∈ table.gotos)
    (hs : s ∉ g.gotoColumns) : get? s gotos = none :=
  Option.eq_none_iff_forall_ne_some.mpr fun _ hentry =>
    hs (mem_gotoColumns.mpr (h.isNonTerminal gotos hgotos _ (mem_of_get?_eq_some hentry)))

include h'

/-- A row of actions is told by its cells, as every key has a column. -/
theorem Fits.actions_eq {row row' : ActionRow} (hrow : row ∈ table.actions)
    (hrow' : row' ∈ table'.actions) (hcells : ∀ t ∈ g.literalColumns,
      Action.plainCell (cellActions row t) = Action.plainCell (cellActions row' t)) :
    row = row' := by
  refine eq_of_get?_eq (h.actions_ascending row hrow) (h'.actions_ascending row' hrow') fun t => ?_
  by_cases ht : t ∈ g.literalColumns
  · exact get?_eq_of_cellActions_eq (h.ne_nil row hrow) (h'.ne_nil row' hrow')
      (Action.plainCell_inj (hcells t ht))
  · rw [h.get?_actions_eq_none hg hrow ht, h'.get?_actions_eq_none hg hrow' ht]

omit hg in
/-- A row of states is told by its cells, as every key has a column. -/
theorem Fits.gotos_eq {gotos gotos' : GotoRow} (hgotos : gotos ∈ table.gotos)
    (hgotos' : gotos' ∈ table'.gotos)
    (hcells : ∀ s ∈ g.gotoColumns, gotoCell gotos s = gotoCell gotos' s) : gotos = gotos' := by
  refine eq_of_get?_eq (h.gotos_ascending gotos hgotos) (h'.gotos_ascending gotos' hgotos')
    fun s => ?_
  by_cases hs : s ∈ g.gotoColumns
  · exact gotoCell_inj (hcells s hs)
  · rw [h.get?_gotos_eq_none hgotos hs, h'.get?_gotos_eq_none hgotos' hs]

/-- **A state and its rows are told by the cells.** -/
theorem plainRow_inj {entry entry' : Nat × ActionRow × GotoRow}
    (hentry : entry ∈ table.numberedRows) (hentry' : entry' ∈ table'.numberedRows)
    (heq : plainRow g entry = plainRow g entry') : entry = entry' := by
  obtain ⟨state, row, gotos⟩ := entry
  obtain ⟨state', row', gotos'⟩ := entry'
  obtain ⟨hrow, hgotos⟩ := of_mem_numberedRows hentry
  obtain ⟨hrow', hgotos'⟩ := of_mem_numberedRows hentry'
  obtain ⟨hactions, hstates⟩ := List.append_inj heq (by simp)
  obtain ⟨hstate, hactions⟩ := List.cons.inj hactions
  have hstate : state = state' := eq_of_toList_repr_eq (congrArg String.toList hstate)
  have hrows : row = row' :=
    Fits.actions_eq hg h h' hrow hrow' (List.map_inj_left.mp hactions)
  have hgotoRows : gotos = gotos' :=
    Fits.gotos_eq h h' hgotos hgotos' (List.map_inj_left.mp hstates)
  rw [hstate, hrows, hgotoRows]

end Told

/-- A table is told by its numbered rows. -/
theorem Fits.eq_of_numberedRows_eq (h : table.Fits g) (h' : table'.Fits g)
    (heq : table.numberedRows = table'.numberedRows) : table = table' := by
  have map_snd (table : ActionTable) :
      table.numberedRows.map Prod.snd = table.actions.zip table.gotos := by
    rw [numberedRows, List.map_map]
    exact List.zipIdx_map_fst 0 _
  have hzip := congrArg (List.map Prod.snd) heq
  rw [map_snd, map_snd] at hzip
  have hactions := congrArg (List.map Prod.fst) hzip
  have hgotos := congrArg (List.map Prod.snd) hzip
  rw [List.map_fst_zip h.length_eq.le, List.map_fst_zip h'.length_eq.le] at hactions
  rw [List.map_snd_zip h.length_eq.ge, List.map_snd_zip h'.length_eq.ge] at hgotos
  obtain ⟨actions, gotos⟩ := table
  obtain ⟨actions', gotos'⟩ := table'
  exact congr (congrArg ActionTable.mk hactions) hgotos

end ActionTable

/-- No cell of the head has a line end. -/
theorem Loads.not_newline_plainHead (h : Loads text rules g) :
    ∀ name ∈ ActionTable.plainHead g, '\n' ∉ name.toList := by
  refine List.forall_mem_cons.mpr ⟨List.not_mem_nil, fun name hname => ?_⟩
  obtain ⟨s, hs, rfl⟩ := List.mem_map.mp hname
  exact h.not_newline_nameOf hs

/-- **The plain text of an SLR(1) table is lossless.**  The table of the automaton of a loaded
grammar fits the grammar.  Tables that fit it and have one text are one table, and the lines of a
text all have the same number of characters. -/
theorem Grammar.actionTable_plain_lossless (hg : Grammar.ofText text = .ok g) :
    (∃ table, g.automaton.actionTable g = .ok table ∧ table.Fits g ∧ table.actions ≠ []) ∧
    (∀ table table' : ActionTable, table.Fits g → table'.Fits g →
      table.plain g = table'.plain g → table = table') ∧
    ∀ table : ActionTable, ∀ line ∈ (table.plain g).toList.splitOn '\n',
      ∀ line' ∈ (table.plain g).toList.splitOn '\n', line.length = line'.length := by
  obtain ⟨rules, hloads⟩ := exists_loads hg
  have hwell := hloads.built.wellFormed
  refine ⟨?_, fun table table' h h' htext => ?_, fun table line hline line' hline' => ?_⟩
  · obtain ⟨table, htable, hexact⟩ := hloads.built.actionTable_exact
    refine ⟨table, htable, hexact.fits, fun hnil => ?_⟩
    obtain ⟨state, hstate, -⟩ := hwell.automaton_complete.exists_start
    have hlt := (List.getElem?_eq_some_iff.mp hstate).1
    rw [← hexact.length_actions, hnil] at hlt
    exact absurd hlt (Nat.not_lt_zero _)
  · rw [ActionTable.plain_eq, ActionTable.plain_eq] at htext
    have hrows := Text.alignRows_inj hloads.not_newline_plainHead hloads.not_newline_plainHead
      (ActionTable.isRow_of_mem g table) (ActionTable.isRow_of_mem g table') htext
    refine h.eq_of_numberedRows_eq h' (Text.eq_of_map_eq_map (fun entry hentry entry' hentry' heq =>
      ActionTable.plainRow_inj hwell h h' hentry hentry' heq) hrows)
  · have hcells : ∀ row ∈ ActionTable.plainHead g ::
        table.numberedRows.map (ActionTable.plainRow g), ∀ cell ∈ row, '\n' ∉ cell.toList :=
      List.forall_mem_cons.mpr ⟨hloads.not_newline_plainHead, fun row hrow cell hcell =>
        ((ActionTable.isRow_of_mem g table row hrow).isCell cell hcell).not_newline⟩
    have hlength := ActionTable.length_eq_of_mem g table
    rw [ActionTable.plain_eq] at hline hline'
    rw [Text.length_of_mem_splitOn_alignRows (List.cons_ne_nil _ _) hcells hlength hline,
      Text.length_of_mem_splitOn_alignRows (List.cons_ne_nil _ _) hcells hlength hline']

/-- The grammar `A|é -> a`, whose left side puts a bar into the head of the table. -/
def Grammar.barred : Grammar :=
  ⟨[.epsilon, .endMark, .nonTerminal "A|\u00e9" [[3]], .terminal "a"], 2, [⟨1, 2, 0, [3]⟩]⟩

/-- Two orders of the actions of one cell are two texts. -/
theorem Grammar.actionTable_plain_lossless_barred :
    let table : ActionTable := ⟨[[(1, [.accept, .reduce 1]), (3, [.shift 1])]], [[(2, 0)]]⟩
    let table' : ActionTable := ⟨[[(1, [.reduce 1, .accept]), (3, [.shift 1])]], [[(2, 0)]]⟩
    Grammar.ofText "A|\u00e9 -> a" = .ok barred ∧ table.Fits barred ∧ table'.Fits barred ∧
      table.plain barred ≠ table'.plain barred ∧
      ∀ line ∈ (table.plain barred).toList.splitOn '\n',
        ∀ line' ∈ (table.plain barred).toList.splitOn '\n', line.length = line'.length := by
  intro table table'
  have hload : Grammar.ofText "A|\u00e9 -> a" = .ok barred := by rfl
  have hfits : table.Fits barred := by
    constructor <;> decide
  have hfits' : table'.Fits barred := by
    constructor <;> decide
  obtain ⟨-, hinj, hlines⟩ := Grammar.actionTable_plain_lossless hload
  refine ⟨hload, hfits, hfits', fun htext => ?_, hlines table⟩
  exact absurd (hinj table table' hfits hfits' htext) (by decide)

end GrammarTables
