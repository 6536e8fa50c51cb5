import GrammarTables.Proofs.Predictive.Conflicts
import GrammarTables.Report.PredictiveTable

/-!
# Proofs/Predictive/Report — the report of the LL(1) table and the table agree

The report goes by non-terminal, alternative and column and fills every cell with its claimants; the
table goes by ordinal and keeps the first claim.  Both look at the same claims: the alternatives of
a non-terminal stand in the order of their ordinals (`Built.predictiveRow_eq`), and whatever is
predicted has a column (`WellFormed.mem_columns_of_mem_claimants`).

A cell with several claimants accounts for one conflict per claimant after the first, and every
conflict comes from such a cell (`WellFormed.filter_clashes`).  So **there is a table exactly when
no cell lists two productions** (`Built.report_exact`).
-/

namespace GrammarTables

variable {g : Grammar} {sets : Sets} {p : Production} {nt : NonTerminal} {s t : SymbolId}

/-- A list of calls that all succeed. -/
theorem mapM_eq_ok {ε α β : Type} {f : α → Except ε β} {answer : α → β} {as : List α}
    (h : ∀ a ∈ as, f a = .ok (answer a)) : as.mapM f = .ok (as.map answer) := by
  induction as with
  | nil => rfl
  | cons a as ih =>
    obtain ⟨ha, has⟩ := List.forall_mem_cons.mp h
    rw [List.mapM_cons, ha, ih has]
    rfl

namespace Grammar

/-! ## The report -/

/-- What is shown in the cell of `s` and `t`. -/
def cell (g : Grammar) (s t : SymbolId) : List (Nat × List String) :=
  (g.claimants s t).map fun p => (p.ordinal, g.spell p.right)

theorem map_fst_cell : (g.cell s t).map Prod.fst = (g.claimants s t).map Production.ordinal := by
  rw [cell, List.map_map]
  rfl

/-- The productions of a non-terminal, each on the place of its alternative. -/
theorem Built.map_alternative (hg : g.Built) (hnt : nt ∈ g.nonTerminals) :
    (g.productions.filter fun p => p.left = nt.index).map Production.alternative =
      List.range nt.alternatives.length := by
  rw [hg.map_filter_left hnt fun _ _ => rfl, List.range_eq_range', ← List.zipIdx_map_snd,
    NonTerminal.productions, List.map_map]
  rfl

/-- **A row shows the claimants of its cells.** -/
theorem Built.predictiveRow_eq (hg : g.Built) (hsets : g.sets = .ok sets)
    (hnt : nt ∈ g.nonTerminals) : predictiveRow g sets nt =
      .ok (nt.name, g.literalColumns.map fun t => ⟨nt.name, g.cell nt.index t⟩) := by
  have hwell := hg.wellFormed
  have hlookup : (List.range nt.alternatives.length).mapM (fun i => do
      let p ← g.productionOf nt.index i
      return (p, sets.predict g p.left p.right)) =
        .ok ((g.productions.filter fun p => p.left = nt.index).map fun p =>
          (p, g.predictSet p)) := by
    rw [← hg.map_alternative hnt, List.mapM_map]
    refine mapM_eq_ok fun p hp => ?_
    obtain ⟨hp, hleft⟩ := List.mem_filter.mp hp
    rw [Function.comp_apply, hwell.productionOf_eq_ok_iff.mpr ⟨hp, of_decide_eq_true hleft, rfl⟩,
      hwell.predictSet_eq hsets hp]
    rfl
  have hcell (t : SymbolId) : predictedOn g t
      ((g.productions.filter fun p => p.left = nt.index).map fun p => (p, g.predictSet p)) =
        g.cell nt.index t := by
    rw [predictedOn, List.filter_map, List.map_map, List.filter_filter, cell, claimants]
    refine congrArg _ (List.filter_congr fun p _ => Bool.and_comm _ _)
  rw [predictiveRow, hlookup]
  refine congrArg (fun cells => Except.ok (nt.name, cells)) (List.map_congr_left fun t _ => ?_)
  rw [hcell]

/-- **The report succeeds**, with the claimants of every cell. -/
theorem Built.predictiveReport_eq (hg : g.Built) : g.predictiveReport =
    .ok ⟨g.spell g.literalColumns, g.nonTerminalsByName.map fun nt =>
      (nt.name, g.literalColumns.map fun t => ⟨nt.name, g.cell nt.index t⟩)⟩ := by
  obtain ⟨sets, hsets, -⟩ := hg.wellFormed.exists_sets
  rw [predictiveReport, hsets]
  have hrows : g.nonTerminalsByName.mapM (predictiveRow g sets) =
      .ok (g.nonTerminalsByName.map fun nt =>
        (nt.name, g.literalColumns.map fun t => ⟨nt.name, g.cell nt.index t⟩)) :=
    mapM_eq_ok fun nt hnt => hg.predictiveRow_eq hsets (Ascending.mem_sortBy.mp hnt)
  change (g.nonTerminalsByName.mapM (predictiveRow g sets) >>= _) = _
  rw [hrows]
  rfl

/-! ## Columns -/

section

variable (hg : g.WellFormed)

include hg

/-- There is a column for each literal. -/
theorem WellFormed.mem_literalColumns : t ∈ g.literalColumns ↔ g.isLiteral t := by
  rw [literalColumns, terminals, List.mem_append, List.mem_filter, List.mem_range,
    List.mem_singleton]
  constructor
  · rintro (⟨-, ht⟩ | rfl)
    · obtain ⟨name, ht⟩ := isTerminal_iff.mp ht
      rw [isLiteral, ht]
      rfl
    · exact hg.isLiteral_endMark
  · intro ht
    have hlt := lt_length_of_isLiteral ht
    rw [isLiteral] at ht
    cases hsymbol : g.symbol? t with
    | none =>
      rw [hsymbol] at ht
      cases ht
    | some symbol =>
      rw [hsymbol] at ht
      cases symbol with
      | terminal name => exact Or.inl ⟨hlt, isTerminal_iff.mpr ⟨name, hsymbol⟩⟩
      | endMark => exact Or.inr (hg.eq_of_symbol_eq hsymbol hg.symbol_endMark)
      | _ => cases ht

theorem WellFormed.nodup_literalColumns : g.literalColumns.Nodup := by
  refine List.nodup_append.mpr ⟨List.nodup_range.filter _, List.nodup_singleton _, ?_⟩
  rintro s hs t ht rfl
  obtain rfl := List.mem_singleton.mp ht
  obtain ⟨name, hs⟩ := isTerminal_iff.mp (List.mem_filter.mp hs).2
  exact nomatch hs.symm.trans hg.symbol_endMark

/-- **Whatever is claimed has a row and a column.** -/
theorem WellFormed.mem_columns_of_mem_claimants (hp : p ∈ g.claimants s t) :
    (∃ nt ∈ g.nonTerminals, nt.index = s) ∧ t ∈ g.literalColumns := by
  obtain ⟨sets, hsets, hs⟩ := hg.exists_sets
  obtain ⟨hmem, rfl, ht⟩ := mem_claimants.mp hp
  obtain ⟨nt, hnt, hindex, -⟩ := hg.exists_nonTerminal hmem
  rw [hg.predictSet_eq hsets hmem] at ht
  exact ⟨⟨nt, hnt, hindex⟩, hg.mem_literalColumns.mpr (hs.isLiteral_of_mem_predict ht)⟩

end

end Grammar

/-! ## The conflicts of a cell -/

/-- Whether a conflict is reported for the cell with these names. -/
def PredictConflict.isAt (nonTerminal terminal : String) (c : PredictConflict) : Bool :=
  c.nonTerminal = nonTerminal && c.terminal = terminal

/-- The conflicts of a cell that lists these ordinals: each with the first one. -/
def conflictsIn (nonTerminal terminal : String) : List Nat → List PredictConflict
  | [] => []
  | first :: rest => rest.map fun second => ⟨nonTerminal, terminal, first, second⟩

theorem conflictsIn_eq_nil_iff {nonTerminal terminal : String} {ordinals : List Nat} :
    conflictsIn nonTerminal terminal ordinals = [] ↔ ordinals.length ≤ 1 := by
  cases ordinals with
  | nil => simp [conflictsIn]
  | cons first rest => simp [conflictsIn, List.map_eq_nil_iff]

/-- The conflict at a cell carries the names of the cell, and those of no other one. -/
theorem Cell.filter_clash? (cell : Cell) {other : Cell} {ordinal : Nat} {holder? : Option Nat}
    (hinj : g.nameOf other.nonTerminal = g.nameOf cell.nonTerminal →
      g.nameOf other.lookahead = g.nameOf cell.lookahead → other = cell) :
    (other.clash? g ordinal holder?).filter
        (PredictConflict.isAt (g.nameOf cell.nonTerminal) (g.nameOf cell.lookahead)) =
      if other = cell then other.clash? g ordinal holder? else none := by
  cases hclash : other.clash? g ordinal holder? with
  | none => rw [Option.filter_none, ite_self]
  | some c =>
    have hnames : c.nonTerminal = g.nameOf other.nonTerminal ∧
        c.terminal = g.nameOf other.lookahead := by
      obtain ⟨holder, -, hc⟩ := Option.bind_eq_some_iff.mp hclash
      split at hc
      · exact nomatch hc
      · obtain rfl := Option.some.inj hc
        exact ⟨rfl, rfl⟩
    rw [Option.filter_some, PredictConflict.isAt, hnames.1, hnames.2]
    refine if_congr ?_ rfl rfl
    rw [Bool.and_eq_true, decide_eq_true_iff, decide_eq_true_iff]
    exact ⟨fun h => hinj h.1 h.2, fun h => h ▸ ⟨rfl, rfl⟩⟩

/-- Every ordinal after the first has a conflict with it. -/
theorem Cell.filterMap_clash? (cell : Cell) {ordinals : List Nat}
    (h : ordinals.Pairwise (· < ·)) :
    ordinals.filterMap (fun ordinal => cell.clash? g ordinal ordinals.head?) =
      conflictsIn (g.nameOf cell.nonTerminal) (g.nameOf cell.lookahead) ordinals := by
  cases ordinals with
  | nil => rfl
  | cons first rest =>
    have hlater : ∀ second ∈ rest, cell.clash? g second (some first) =
        some (cell.conflict g first second) := fun second hsecond =>
      if_neg (Nat.ne_of_lt ((List.pairwise_cons.mp h).1 second hsecond))
    have hfirst : cell.clash? g first (some first) = none := if_pos rfl
    rw [List.head?_cons, List.filterMap_cons, hfirst, List.filterMap_congr hlater]
    change rest.filterMap (some ∘ cell.conflict g first) = rest.map (cell.conflict g first)
    rw [List.filterMap_eq_map]

namespace Grammar

section

variable (hg : g.WellFormed)

include hg

/-- **A cell accounts for one conflict for each claimant after the first.** -/
theorem WellFormed.filter_clashes (hs : g.isNonTerminal s) (ht : g.isLiteral t) :
    g.clashes.filter (PredictConflict.isAt (g.nameOf s) (g.nameOf t)) =
      conflictsIn (g.nameOf s) (g.nameOf t) ((g.cell s t).map Prod.fst) := by
  obtain ⟨sets, hsets, hsettled⟩ := hg.exists_sets
  have hat : ∀ entry ∈ sets.predictions g,
      (entry.1.clash? g entry.2 (Ascending.get? entry.1 (sets.predictions g))).filter
          (PredictConflict.isAt (g.nameOf s) (g.nameOf t)) =
        if decide (entry.1 = ⟨s, t⟩) then
          entry.1.clash? g entry.2 (Ascending.get? entry.1 (sets.predictions g))
        else none := by
    intro entry hentry
    simp only [decide_eq_true_iff]
    refine Cell.filter_clash? ⟨s, t⟩ fun hname hname' => ?_
    obtain ⟨p, hp, hleft, -, ht'⟩ := Sets.mem_predictions.mp hentry
    have hs' := hleft ▸ hg.isNonTerminal_left hp
    have ht' := hsettled.isLiteral_of_mem_predict ht'
    exact congr (congrArg Cell.mk (hg.eq_of_nameOf_eq (lt_length_of_isNonTerminal hs')
      (lt_length_of_isNonTerminal hs) hname)) (hg.eq_of_nameOf_eq (lt_length_of_isLiteral ht')
        (lt_length_of_isLiteral ht) hname')
  have hsorted : ((g.claimants s t).map Production.ordinal).Pairwise (· < ·) :=
    List.pairwise_map.mpr (hg.pairwise_claimants s t)
  rw [← hg.clashesAmong_predictions hsets, clashesAmong, List.filter_filterMap,
    List.filterMap_congr hat, ← List.filterMap_filter, hg.filter_predictions hsets,
    List.filterMap_map, map_fst_cell, ← Cell.filterMap_clash? ⟨s, t⟩ hsorted, List.filterMap_map,
    List.head?_map, ← hg.get?_predictions hsets]
  rfl

/-- **Every conflict is one of a cell.** -/
theorem WellFormed.exists_isAt_of_mem_clashes {c : PredictConflict} (hc : c ∈ g.clashes) :
    ∃ nt ∈ g.nonTerminals, ∃ t ∈ g.literalColumns, c.isAt nt.name (g.nameOf t) := by
  obtain ⟨p, hp, hc⟩ := List.mem_flatMap.mp hc
  obtain ⟨t, ht, hc⟩ := List.mem_filterMap.mp hc
  obtain ⟨first, -, rfl⟩ := Option.map_eq_some_iff.mp hc
  obtain ⟨⟨nt, hnt, hindex⟩, hcolumn⟩ :=
    hg.mem_columns_of_mem_claimants (mem_claimants.mpr ⟨hp, rfl, ht⟩)
  refine ⟨nt, hnt, t, hcolumn, ?_⟩
  rw [← nameOf_index_of_mem hnt, hindex]
  simp [PredictConflict.isAt]

/-- There is no conflict exactly when no cell lists two productions. -/
theorem WellFormed.clashes_eq_nil_iff : g.clashes = [] ↔
    ∀ nt ∈ g.nonTerminals, ∀ t ∈ g.literalColumns, (g.cell nt.index t).length ≤ 1 := by
  have hcell {nt : NonTerminal} {t : SymbolId} (hnt : nt ∈ g.nonTerminals)
      (ht : t ∈ g.literalColumns) :
      g.clashes.filter (PredictConflict.isAt nt.name (g.nameOf t)) = [] ↔
        (g.cell nt.index t).length ≤ 1 := by
    rw [← nameOf_index_of_mem hnt,
      hg.filter_clashes (isNonTerminal_index hnt) (hg.mem_literalColumns.mp ht),
      conflictsIn_eq_nil_iff, List.length_map]
  constructor
  · intro h nt hnt t ht
    rw [← hcell hnt ht, h]
    rfl
  · intro h
    by_contra hne
    obtain ⟨c, hc⟩ := List.exists_mem_of_ne_nil _ hne
    obtain ⟨nt, hnt, t, ht, hat⟩ := hg.exists_isAt_of_mem_clashes hc
    exact List.filter_eq_nil_iff.mp ((hcell hnt ht).mpr (h nt hnt t ht)) c hc hat

theorem WellFormed.exists_table_iff_clashes {policy : ConflictPolicy} :
    (∃ table, g.predictiveTable policy = .ok table) ↔ g.clashes = [] := by
  obtain ⟨result, -, hresult⟩ := hg.predictiveTable_eq
  rw [hresult]
  cases g.clashes <;> simp

/-- **The table has in each cell the first production that is listed there.** -/
theorem WellFormed.get?_eq_head?_cell {policy : ConflictPolicy} {table : PredictiveTable}
    (htable : g.predictiveTable policy = .ok table) (s t : SymbolId) :
    table.get? s t = (g.cell s t).head?.map Prod.fst := by
  obtain ⟨result, hget, hresult⟩ := hg.predictiveTable_eq
  rw [hresult] at htable
  split at htable
  · obtain rfl := Except.ok.inj htable
    rw [hget, ← List.head?_map, ← List.head?_map, map_fst_cell]
  · exact nomatch htable

theorem WellFormed.mem_cell_iff {ordinal : Nat} {right : List String} :
    (ordinal, right) ∈ g.cell s t ↔ ∃ p ∈ g.productions, p.left = s ∧
      p.ordinal = ordinal ∧ g.spell p.right = right ∧
        ∃ set, g.predictOf p.left p.alternative = .ok set ∧ t ∈ set := by
  rw [cell, List.mem_map]
  constructor
  · rintro ⟨p, hp, heq⟩
    obtain ⟨hmem, hleft, ht⟩ := mem_claimants.mp hp
    obtain ⟨hordinal, hright⟩ := Prod.mk.inj heq
    exact ⟨p, hmem, hleft, hordinal, hright, _, (hg.predictOf_eq_predictSet hmem).1, ht⟩
  · rintro ⟨p, hmem, hleft, rfl, rfl, set, hset, ht⟩
    obtain rfl := Except.ok.inj ((hg.predictOf_eq_predictSet hmem).1.symm.trans hset)
    exact ⟨p, mem_claimants.mpr ⟨hmem, hleft, ht⟩, rfl⟩

end

end Grammar

/-! ## The report and the table -/

/-- A report of all cells of a grammar. -/
structure PredictiveReport.Lists (report : PredictiveReport) (g : Grammar) : Prop where
  columns_eq : report.columns = g.spell g.literalColumns
  /-- There is one column for each terminal and one for the end mark. -/
  nodup_columns : g.literalColumns.Nodup
  mem_columns : ∀ t, t ∈ g.literalColumns ↔ g.isLiteral t
  rows_eq : report.rows = g.nonTerminalsByName.map fun nt =>
    (nt.name, g.literalColumns.map fun t => ⟨nt.name, g.cell nt.index t⟩)
  /-- There is one row for each non-terminal. -/
  perm_rows : g.nonTerminalsByName.Perm g.nonTerminals
  sorted_rows : report.rows.Pairwise fun row row' => row.1 < row'.1
  /-- A cell lists the productions that are predicted there. -/
  mem_cell : ∀ (s t : SymbolId) (ordinal : Nat) (right : List String),
    (ordinal, right) ∈ g.cell s t ↔ ∃ p ∈ g.productions, p.left = s ∧
      p.ordinal = ordinal ∧ g.spell p.right = right ∧
        ∃ set, g.predictOf p.left p.alternative = .ok set ∧ t ∈ set
  sorted_cell : ∀ s t, (g.cell s t).Pairwise fun entry entry' => entry.1 < entry'.1

namespace Grammar

/-- **There is a report**, and it lists what it should. -/
theorem Built.exists_report (hg : g.Built) :
    ∃ report, g.predictiveReport = .ok report ∧ report.Lists g := by
  have hwell := hg.wellFormed
  refine ⟨_, hg.predictiveReport_eq, ?_⟩
  constructor
  case columns_eq => rfl
  case nodup_columns => exact hwell.nodup_literalColumns
  case mem_columns => exact fun t => hwell.mem_literalColumns
  case rows_eq => rfl
  case perm_rows => exact Ascending.perm_sortBy
  case sorted_rows => exact List.pairwise_map.mpr hwell.pairwise_nonTerminalsByName
  case mem_cell => exact fun s t ordinal right => hwell.mem_cell_iff
  case sorted_cell => exact fun s t => List.pairwise_map.mpr (hwell.pairwise_claimants s t)

/-- **The report and the table agree.**  There is always a report.  There is a table exactly when no
cell of the report lists two productions, and then it has the production of each cell.  When there
is none, every cell has a conflict of its first production with each of its others, and there are no
other conflicts. -/
theorem Built.report_exact (hg : g.Built) :
    (∃ report, g.predictiveReport = .ok report ∧ report.Lists g) ∧
    (∀ policy, (∃ table, g.predictiveTable policy = .ok table) ↔
      ∀ nt ∈ g.nonTerminals, ∀ t ∈ g.literalColumns, (g.cell nt.index t).length ≤ 1) ∧
    (∀ policy table, g.predictiveTable policy = .ok table →
      ∀ s t, table.get? s t = (g.cell s t).head?.map Prod.fst) ∧
    ∀ e, g.predictiveTable .collect = .error e → ∃ conflicts, e = .conflicts conflicts ∧
      (∀ nt ∈ g.nonTerminals, ∀ t ∈ g.literalColumns,
        conflicts.filter (PredictConflict.isAt nt.name (g.nameOf t)) =
          conflictsIn nt.name (g.nameOf t) ((g.cell nt.index t).map Prod.fst)) ∧
      ∀ c ∈ conflicts, ∃ nt ∈ g.nonTerminals, ∃ t ∈ g.literalColumns,
        c.isAt nt.name (g.nameOf t) := by
  have hwell := hg.wellFormed
  refine ⟨hg.exists_report, fun policy => ?_, fun policy table htable =>
    hwell.get?_eq_head?_cell htable, fun e he => ?_⟩
  · exact hwell.exists_table_iff_clashes.trans hwell.clashes_eq_nil_iff
  · obtain ⟨_, -, hresult⟩ := hwell.predictiveTable_eq
    rw [hresult] at he
    split at he
    · exact nomatch he
    · refine ⟨g.clashes, (Except.error.inj he).symm, fun nt hnt t ht => ?_, fun c hc =>
        hwell.exists_isAt_of_mem_clashes hc⟩
      rw [← nameOf_index_of_mem hnt]
      exact hwell.filter_clashes (isNonTerminal_index hnt) (hwell.mem_literalColumns.mp ht)

theorem report_exact_crowded :
    (∃ report, crowded.predictiveReport = .ok report ∧ report.Lists crowded) ∧
    (crowded.cell 2 4).map Prod.fst = [3, 4, 6] ∧
    ∃ conflicts, crowded.predictiveTable .collect = .error (.conflicts conflicts) ∧
      conflicts.filter (PredictConflict.isAt "S" "a") = [⟨"S", "a", 3, 4⟩, ⟨"S", "a", 3, 6⟩] := by
  obtain ⟨hreport, -, -, hconflicts⟩ := crowded_built.report_exact
  have herror : crowded.predictiveTable .collect = .error (.conflicts crowded.clashes) := rfl
  obtain ⟨conflicts, heq, hcells, -⟩ := hconflicts _ herror
  have hcell := hcells ⟨2, "S", [[3], [4], [5], [3, 6]]⟩ (by decide) 4 (by decide)
  exact ⟨hreport, rfl, conflicts, heq ▸ herror, hcell⟩

end Grammar

end GrammarTables
