import GrammarTables.Predictive.Table
import GrammarTables.Proofs.Analysis.Follow

/-!
# Proofs/Predictive/Table — a table without conflicts has the predictions and nothing else

A cell belongs to the first production that claims it, and every later claimant is one conflict.
While a table is filled it knows the first claims of what is done (`PredictiveTable.Agrees`), so
what filling meets can be read off the list of all predictions (`fill_eq`), for both policies at
once: they differ only in how many of the conflicts they report (`ConflictPolicy.reported`).

So when filling succeeds, each production stands in the cells of its own PREDICT set
(`Sets.get?_of_mem_predict`), and no two productions of one non-terminal predict one lookahead.  No
other cell is filled (`mem_of_fill`), and filling does succeed when no two predictions for a cell
differ (`exists_fill`).  There is a table exactly when the alternatives of every non-terminal are
predicted on different literals (`Grammar.WellFormed.exists_predictiveTable_iff`), and what it holds
is what PREDICT means (`Sets.get?_eq_some_iff`, `Sets.Settled.mem_predict_iff_derives`).
-/

namespace GrammarTables

variable {g : Grammar} {policy : ConflictPolicy} {table result : PredictiveTable}
  {cell : Cell} {ordinal : Nat} {entries done : List (Cell × Nat)}
  {conflicts : List PredictConflict}

/-- The entries of a table are a map. -/
def PredictiveTable.IsMap (table : PredictiveTable) : Prop :=
  Ascending.HasAscendingKeys table.entries

namespace PredictiveTable

/-- Filling starts without entries. -/
theorem isMap_empty : empty.IsMap :=
  List.Pairwise.nil

theorem IsMap.set (h : table.IsMap) : (table.set cell ordinal).IsMap :=
  Ascending.hasAscendingKeys_update h

/-- A cell that is set has its ordinal, and no other cell changes. -/
theorem IsMap.get?_set (h : table.IsMap) (other : Cell) :
    (table.set cell ordinal).get? other.nonTerminal other.lookahead =
      if cell = other then some ordinal else table.get? other.nonTerminal other.lookahead :=
  Ascending.get?_update h

/-- A table that has, in every cell, the first prediction for it among `done`. -/
structure Agrees (table : PredictiveTable) (done : List (Cell × Nat)) : Prop where
  isMap : table.IsMap
  get?_eq : ∀ cell : Cell,
    table.get? cell.nonTerminal cell.lookahead = Ascending.get? cell done

theorem IsMap.agrees (h : table.IsMap) : table.Agrees table.entries :=
  ⟨h, fun _ => rfl⟩

theorem agrees_empty : empty.Agrees [] :=
  isMap_empty.agrees

/-- The table after a prediction that gives way to an earlier one. -/
def claim (table : PredictiveTable) (entry : Cell × Nat) : PredictiveTable :=
  if (table.get? entry.1.nonTerminal entry.1.lookahead).isSome then table
  else table.set entry.1 entry.2

/-- **A cell belongs to the first production that claims it**, whatever comes later. -/
theorem Agrees.claim (h : table.Agrees done) (entry : Cell × Nat) :
    (table.claim entry).Agrees (done ++ [entry]) := by
  obtain ⟨cell, ordinal⟩ := entry
  have hnew (other : Cell) : Ascending.get? other [(cell, ordinal)] =
      if cell = other then some ordinal else none := Ascending.get?_cons
  rw [PredictiveTable.claim, h.get?_eq]
  split
  · next hheld =>
    refine ⟨h.isMap, fun other => ?_⟩
    rw [h.get?_eq, Ascending.get?_append, hnew]
    split
    · next heq =>
      subst heq
      exact (Option.or_of_isSome hheld).symm
    · rw [Option.or_none]
  · next hfree =>
    refine ⟨h.isMap.set, fun other => ?_⟩
    rw [h.isMap.get?_set, h.get?_eq, Ascending.get?_append, hnew]
    split
    · next heq =>
      subst heq
      rw [Option.not_isSome_iff_eq_none.mp hfree, Option.none_or]
    · rw [Option.or_none]

/-- So the filled table shows what the first claims were, in the order of the productions. -/
theorem Agrees.foldl_claim (h : table.Agrees done) :
    (entries.foldl PredictiveTable.claim table).Agrees (done ++ entries) := by
  induction entries generalizing table done with
  | nil => rwa [List.append_nil]
  | cons entry entries ih =>
    rw [List.append_cons]
    exact ih (h.claim entry)

end PredictiveTable

/-! ## Filling -/

/-- The conflict that the production with `ordinal` has in a cell of which another one may be the
holder. -/
def Cell.clash? (cell : Cell) (g : Grammar) (ordinal : Nat) (holder? : Option Nat) :
    Option PredictConflict :=
  holder?.bind fun holder =>
    if holder = ordinal then none else some (cell.conflict g holder ordinal)

/-- The conflicts that some predictions have with the first ones of all. -/
def clashesAmong (g : Grammar) (all : List (Cell × Nat)) (entries : List (Cell × Nat)) :
    List PredictConflict :=
  entries.filterMap fun entry => entry.1.clash? g entry.2 (Ascending.get? entry.1 all)

/-- How many of the conflicts a policy reports. -/
def ConflictPolicy.reported : ConflictPolicy → List PredictConflict → List PredictConflict
  | failFast, conflicts => conflicts.take 1
  | collect, conflicts => conflicts

/-- **Filling meets the conflicts of the predictions with the first ones for their cells**, and
reports what the policy says; without a conflict each cell gets the first prediction for it. -/
theorem fill_eq (h : table.Agrees done) (hfast : policy = .failFast → conflicts = []) :
    fill g policy entries table conflicts =
      if (conflicts ++ clashesAmong g (done ++ entries) entries).isEmpty then
        .ok (entries.foldl PredictiveTable.claim table)
      else
        .error (policy.reported (conflicts ++ clashesAmong g (done ++ entries) entries)) := by
  induction entries generalizing table done conflicts with
  | nil =>
    rw [clashesAmong, List.filterMap_nil, List.append_nil, fill]
    cases policy with
    | collect => rfl
    | failFast =>
      rw [hfast rfl]
      rfl
  | cons entry entries ih =>
    obtain ⟨cell, ordinal⟩ := entry
    have hfirst : Ascending.get? cell (done ++ (cell, ordinal) :: entries) =
        some ((table.get? cell.nonTerminal cell.lookahead).getD ordinal) := by
      rw [Ascending.get?_append, Ascending.get?_cons, if_pos rfl, ← h.get?_eq]
      cases table.get? cell.nonTerminal cell.lookahead <;> rfl
    have hclashes :
        clashesAmong g (done ++ (cell, ordinal) :: entries) ((cell, ordinal) :: entries) =
        (cell.clash? g ordinal
          (some ((table.get? cell.nonTerminal cell.lookahead).getD ordinal))).toList ++
          clashesAmong g ((done ++ [(cell, ordinal)]) ++ entries) entries := by
      rw [List.append_assoc, List.singleton_append, clashesAmong, List.filterMap_cons, hfirst]
      cases cell.clash? g ordinal _ <;> rfl
    have hclaim := h.claim (cell, ordinal)
    rw [PredictiveTable.claim] at hclaim
    rw [hclashes, List.foldl_cons, PredictiveTable.claim, fill]
    cases hget : table.get? cell.nonTerminal cell.lookahead with
    | none =>
      rw [hget] at hclaim
      simpa [Cell.clash?] using ih hclaim hfast
    | some holder =>
      rw [hget] at hclaim
      by_cases hsame : holder = ordinal
      · simpa [Cell.clash?, hsame] using ih hclaim hfast
      · cases policy with
        | collect =>
          have hcollect : ConflictPolicy.collect = .failFast →
              conflicts ++ [cell.conflict g holder ordinal] = [] := by
            intro h
            cases h
          have hrest := ih hclaim hcollect
          simpa [Cell.clash?, hsame] using hrest
        | failFast => simp [Cell.clash?, hsame, hfast rfl, ConflictPolicy.reported]

/-- Without a clash every claim repeats the first one for its cell. -/
theorem clashesAmong_eq_nil_iff {all : List (Cell × Nat)} : clashesAmong g all entries = [] ↔
    ∀ entry ∈ entries, ∀ first, Ascending.get? entry.1 all = some first → first = entry.2 := by
  rw [clashesAmong, List.filterMap_eq_nil_iff]
  refine forall₂_congr fun entry _ => ?_
  cases Ascending.get? entry.1 all <;> simp [Cell.clash?]

/-- **A map is filled without conflict when no prediction differs from the first one for its
cell**, what the map holds coming before all predictions. -/
theorem fill_eq_ok_iff (htable : table.IsMap) : fill g policy entries table [] = .ok result ↔
    clashesAmong g (table.entries ++ entries) entries = [] ∧
      entries.foldl PredictiveTable.claim table = result := by
  rw [fill_eq htable.agrees fun _ => rfl, List.nil_append]
  cases clashesAmong g (table.entries ++ entries) entries <;> simp

/-- **A table that is filled without conflict has all that it was to get.** -/
theorem get?_of_fill (htable : table.IsMap) (h : fill g policy entries table [] = .ok result) :
    ∀ entry ∈ entries, result.get? entry.1.nonTerminal entry.1.lookahead = some entry.2 := by
  obtain ⟨hnone, rfl⟩ := (fill_eq_ok_iff htable).mp h
  intro entry hentry
  rw [htable.agrees.foldl_claim.get?_eq]
  obtain ⟨first, hfirst⟩ :=
    Ascending.exists_get?_of_mem (List.mem_append_right table.entries hentry)
  rw [hfirst, clashesAmong_eq_nil_iff.mp hnone entry hentry first hfirst]

/-- **A table that is filled without conflict has nothing else.** -/
theorem mem_of_fill (htable : table.IsMap) (h : fill g policy entries table [] = .ok result) :
    result.IsMap ∧ ∀ s t ordinal, result.get? s t = some ordinal →
      table.get? s t = some ordinal ∨ (⟨s, t⟩, ordinal) ∈ entries := by
  obtain ⟨-, rfl⟩ := (fill_eq_ok_iff htable).mp h
  have hagrees : (entries.foldl PredictiveTable.claim table).Agrees (table.entries ++ entries) :=
    htable.agrees.foldl_claim
  refine ⟨hagrees.isMap, fun s t ordinal hget => ?_⟩
  rw [hagrees.get?_eq ⟨s, t⟩, Ascending.get?_append, Option.or_eq_some_iff] at hget
  exact hget.imp_right fun h => Ascending.mem_of_get?_eq_some h.2

/-- **Filling succeeds when the predictions for a cell agree**, with each other and with what it
holds already. -/
theorem exists_fill (htable : table.IsMap)
    (hentries : ∀ entry ∈ entries, ∀ entry' ∈ entries, entry.1 = entry'.1 → entry.2 = entry'.2)
    (hheld : ∀ entry ∈ entries, ∀ ordinal,
      table.get? entry.1.nonTerminal entry.1.lookahead = some ordinal → ordinal = entry.2) :
    ∃ result, fill g policy entries table [] = .ok result := by
  refine ⟨_, (fill_eq_ok_iff htable).mpr ⟨clashesAmong_eq_nil_iff.mpr ?_, rfl⟩⟩
  intro entry hentry first hfirst
  rw [Ascending.get?_append, Option.or_eq_some_iff] at hfirst
  rcases hfirst with hfirst | ⟨-, hfirst⟩
  · exact hheld entry hentry first hfirst
  · exact hentries _ (Ascending.mem_of_get?_eq_some hfirst) entry hentry rfl

/-- Filling fails with a conflict at least. -/
theorem fill_error_ne_nil {met : List PredictConflict}
    (h : fill g policy entries .empty [] = .error met) : met ≠ [] := by
  rw [fill_eq PredictiveTable.agrees_empty fun _ => rfl, List.nil_append, List.nil_append] at h
  cases hclashes : clashesAmong g entries entries with
  | nil =>
    rw [hclashes] at h
    cases h
  | cons first rest =>
    rw [hclashes] at h
    obtain rfl := Except.error.inj h
    cases policy <;> exact List.cons_ne_nil _ _

/-! ## The table of a grammar -/

namespace Sets

variable {sets : Sets} {p : Production} {s t : SymbolId}

/-- A production claims the cells of its left side and of each of its lookaheads. -/
theorem mem_predictions : (cell, ordinal) ∈ sets.predictions g ↔ ∃ p ∈ g.productions,
    p.left = cell.nonTerminal ∧ p.ordinal = ordinal ∧
      cell.lookahead ∈ sets.predict g p.left p.right := by
  rw [predictions, List.mem_flatMap]
  refine exists_congr fun p => and_congr_right fun _ => ?_
  rw [List.mem_map]
  constructor
  · rintro ⟨t, ht, h⟩
    obtain ⟨rfl, rfl⟩ := Prod.mk.inj h
    exact ⟨rfl, rfl, ht⟩
  · rintro ⟨hleft, rfl, ht⟩
    exact ⟨cell.lookahead, ht, by rw [hleft]⟩

theorem predictiveTable_eq_ok_iff (hsets : g.sets = .ok sets) :
    g.predictiveTable policy = .ok table ↔
      fill g policy (sets.predictions g) .empty [] = .ok table := by
  rw [Grammar.predictiveTable, hsets]
  dsimp only
  cases fill g policy (sets.predictions g) .empty [] with
  | ok result =>
    exact ⟨fun h => congrArg _ (Except.ok.inj h), fun h => congrArg _ (Except.ok.inj h)⟩
  | error conflicts => exact ⟨nofun, nofun⟩

/-- **Each production stands in the cells that it predicts.** -/
theorem get?_of_mem_predict (hsets : g.sets = .ok sets) (h : g.predictiveTable policy = .ok table)
    (hp : p ∈ g.productions) (ht : t ∈ sets.predict g p.left p.right) :
    table.get? p.left t = some p.ordinal := by
  have hfill := (predictiveTable_eq_ok_iff hsets).mp h
  exact get?_of_fill PredictiveTable.isMap_empty hfill (⟨p.left, t⟩, p.ordinal)
    (mem_predictions.mpr ⟨p, hp, rfl, rfl, ht⟩)

/-- **A cell has an ordinal exactly when the production with it predicts the cell.** -/
theorem get?_eq_some_iff (hsets : g.sets = .ok sets) (h : g.predictiveTable policy = .ok table) :
    table.get? s t = some ordinal ↔
      ∃ p ∈ g.productions, p.left = s ∧ p.ordinal = ordinal ∧
        t ∈ sets.predict g p.left p.right := by
  constructor
  · intro hcell
    have hfill := (predictiveTable_eq_ok_iff hsets).mp h
    rcases (mem_of_fill PredictiveTable.isMap_empty hfill).2 s t ordinal hcell with hempty | hmem
    · exact nomatch hempty
    · exact mem_predictions.mp hmem
  · rintro ⟨p, hp, rfl, rfl, ht⟩
    exact get?_of_mem_predict hsets h hp ht

end Sets

namespace Grammar

variable {sets : Sets} {p q : Production} {s t : SymbolId} {alternatives : List (List SymbolId)}

/-- Only a non-terminal has alternatives to ask for. -/
theorem alternatives_eq_ok_iff : g.alternatives s = .ok alternatives ↔
    ∃ name, g.symbol? s = some (.nonTerminal name alternatives) := by
  rw [Grammar.alternatives, symbol]
  cases g.symbol? s with
  | none => simp
  | some symbol => cases symbol <;> simp

/-- A production can be asked for by its left side and its place; the answer is what the table is
filled with. -/
theorem predictOf_eq_ok {number : Nat} {right : List SymbolId} (hsets : g.sets = .ok sets)
    (hs : g.alternatives s = .ok alternatives) (hright : alternatives[number]? = some right) :
    g.predictOf s number = .ok (sets.predict g s right) := by
  rw [predictOf, alternative, hs]
  dsimp only
  rw [hright, hsets]
  rfl

/-- Two alternatives have PREDICT sets without a common literal. -/
def PredictApart (g : Grammar) (s : SymbolId) (i j : Nat) : Prop :=
  ∃ set set', g.predictOf s i = .ok set ∧ g.predictOf s j = .ok set' ∧ set.Disjoint set'

/-- The alternatives of every non-terminal are predicted on different literals. -/
def IsLL1 (g : Grammar) : Prop :=
  ∀ s alternatives, g.alternatives s = .ok alternatives →
    ∀ i j, i < j → j < alternatives.length → g.PredictApart s i j

/-- A later alternative predicts none of the literals of an earlier one. -/
theorem IsLL1.not_lt (h : g.IsLL1) (hg : g.WellFormed) (hsets : g.sets = .ok sets)
    (hp : p ∈ g.productions) (hq : q ∈ g.productions) (hleft : p.left = q.left)
    (ht : t ∈ sets.predict g p.left p.right) (ht' : t ∈ sets.predict g q.left q.right) :
    ¬ p.alternative < q.alternative := by
  intro hlt
  obtain ⟨name, alternatives, hs, hright⟩ := hg.alternative_of_mem hp
  obtain ⟨name', alternatives', hs', hright'⟩ := hg.alternative_of_mem hq
  rw [← hleft] at hs' ht'
  obtain ⟨-, rfl⟩ := Symbol.nonTerminal.inj (Option.some.inj (hs.symm.trans hs'))
  have halternatives := alternatives_eq_ok_iff.mpr ⟨name, hs⟩
  have hlength : q.alternative < alternatives.length :=
    (List.getElem?_eq_some_iff.mp hright').1
  obtain ⟨set, set', hset, hset', hapart⟩ := h p.left alternatives halternatives _ _ hlt hlength
  rw [predictOf_eq_ok hsets halternatives hright] at hset
  rw [predictOf_eq_ok hsets halternatives hright'] at hset'
  obtain rfl := Except.ok.inj hset
  obtain rfl := Except.ok.inj hset'
  exact hapart ht ht'

/-- In such a grammar no two productions of one left side have a prediction in common. -/
theorem IsLL1.eq_of_mem_predict (h : g.IsLL1) (hg : g.WellFormed) (hsets : g.sets = .ok sets)
    (hp : p ∈ g.productions) (hq : q ∈ g.productions) (hleft : p.left = q.left)
    (ht : t ∈ sets.predict g p.left p.right) (ht' : t ∈ sets.predict g q.left q.right) : p = q := by
  have hle := Nat.le_of_not_lt (h.not_lt hg hsets hp hq hleft ht ht')
  have hge := Nat.le_of_not_lt (h.not_lt hg hsets hq hp hleft.symm ht' ht)
  exact hg.eq_of_alternative_eq hp hq hleft (Nat.le_antisymm hge hle)

/-- **There is a table exactly when the alternatives are predicted on different literals.** -/
theorem WellFormed.exists_predictiveTable_iff (hg : g.WellFormed) (policy : ConflictPolicy) :
    (∃ table, g.predictiveTable policy = .ok table) ↔ g.IsLL1 := by
  obtain ⟨sets, hsets, -⟩ := hg.exists_sets
  constructor
  · rintro ⟨table, htable⟩ s alternatives halternatives i j hij hj
    obtain ⟨name, hs⟩ := alternatives_eq_ok_iff.mp halternatives
    have hright {number : Nat} (hlt : number < alternatives.length) :
        alternatives[number]? = some alternatives[number] := List.getElem?_eq_getElem hlt
    have hi : i < alternatives.length := hij.trans hj
    obtain ⟨p, hp, rfl, rfl, hpright⟩ := hg.mem_of_alternative hs (hright hi)
    obtain ⟨q, hq, hleft, rfl, hqright⟩ := hg.mem_of_alternative hs (hright hj)
    refine ⟨_, _, predictOf_eq_ok hsets halternatives (hright hi),
      predictOf_eq_ok hsets halternatives (hright hj), fun t ht ht' => ?_⟩
    rw [← hpright] at ht
    rw [← hqright, ← hleft] at ht'
    -- one cell has one ordinal
    have hcell := sets.get?_of_mem_predict hsets htable hp ht
    rw [← hleft, sets.get?_of_mem_predict hsets htable hq ht'] at hcell
    obtain rfl := hg.eq_of_ordinal_eq hp hq (Option.some.inj hcell).symm
    exact Nat.lt_irrefl _ hij
  · intro hLL1
    have hagree : ∀ entry ∈ sets.predictions g, ∀ entry' ∈ sets.predictions g,
        entry.1 = entry'.1 → entry.2 = entry'.2 := by
      rintro ⟨cell, ordinal⟩ hmem ⟨cell', ordinal'⟩ hmem' rfl
      obtain ⟨p, hp, hpleft, rfl, ht⟩ := Sets.mem_predictions.mp hmem
      obtain ⟨q, hq, hqleft, rfl, ht'⟩ := Sets.mem_predictions.mp hmem'
      rw [hLL1.eq_of_mem_predict hg hsets hp hq (hpleft.trans hqleft.symm) ht ht']
    obtain ⟨table, hfill⟩ : ∃ table, fill g policy (sets.predictions g) .empty [] = .ok table :=
      exists_fill PredictiveTable.isMap_empty hagree fun _ _ _ hempty => nomatch hempty
    exact ⟨table, (Sets.predictiveTable_eq_ok_iff hsets).mpr hfill⟩

/-- **The table of a built grammar is exact.**  There is one exactly when the alternatives of every
non-terminal are predicted on different literals.  Its entries are those of the productions on the
literals that their right sides can begin with, and on those that can follow the left side where the
right side can vanish.  When there is none, there are conflicts. -/
theorem Built.predictiveTable_exact (hg : g.Built) (policy : ConflictPolicy) :
    ((∃ table, g.predictiveTable policy = .ok table) ↔ g.IsLL1) ∧
    (∀ table, g.predictiveTable policy = .ok table → ∀ s t ordinal,
      ((⟨s, t⟩, ordinal) ∈ table.entries ↔ table.get? s t = some ordinal) ∧
      (table.get? s t = some ordinal ↔ ∃ p ∈ g.productions, p.left = s ∧ p.ordinal = ordinal ∧
        ((g.isLiteral t ∧ ∃ rest, g.Derives (visible p.right) (t :: rest)) ∨
          g.Derives (visible p.right) [] ∧ ∃ set, g.followOf s = .ok set ∧ t ∈ set))) ∧
    ∀ e, g.predictiveTable policy = .error e →
      ∃ conflicts, e = .conflicts conflicts ∧ conflicts ≠ [] := by
  have hwell := hg.wellFormed
  obtain ⟨sets, hsets, hs⟩ := hwell.exists_sets
  refine ⟨hwell.exists_predictiveTable_iff policy, fun table htable s t ordinal => ⟨?_, ?_⟩, ?_⟩
  · have hfill := (Sets.predictiveTable_eq_ok_iff hsets).mp htable
    exact Ascending.mem_iff_get?_eq_some (mem_of_fill PredictiveTable.isMap_empty hfill).1
  · rw [Sets.get?_eq_some_iff hsets htable]
    refine exists_congr fun p => and_congr_right fun hp => and_congr_right ?_
    rintro rfl
    have hfollow := hwell.mem_followOf_iff_exists hsets (hwell.isNonTerminal_left hp) (t := t)
    rw [hs.mem_predict_iff_derives hwell, hfollow]
  · intro e he
    rw [predictiveTable, hsets] at he
    dsimp only at he
    split at he
    · exact nomatch he
    · next conflicts hfill =>
      exact ⟨conflicts, (Except.error.inj he).symm, fill_error_ne_nil hfill⟩

/-- The table of `tangled`. -/
def tangledTable : PredictiveTable :=
  ⟨[(⟨2, 6⟩, 5), (⟨3, 6⟩, 1), (⟨4, 6⟩, 2)]⟩

theorem tangled_predictiveTable (policy : ConflictPolicy) :
    tangled.predictiveTable policy = .ok tangledTable := by
  cases policy <;> rfl

theorem predictiveTable_exact_tangled : tangled.IsLL1 ∧ ∀ s t ordinal,
    tangledTable.get? s t = some ordinal ↔ ∃ p ∈ tangled.productions,
      p.left = s ∧ p.ordinal = ordinal ∧
        ((tangled.isLiteral t ∧ ∃ rest, tangled.Derives (visible p.right) (t :: rest)) ∨
          tangled.Derives (visible p.right) [] ∧
            ∃ set, tangled.followOf s = .ok set ∧ t ∈ set) := by
  obtain ⟨hLL1, hentries, -⟩ := tangled_built.predictiveTable_exact .collect
  have htable := tangled_predictiveTable .collect
  exact ⟨hLL1.mp ⟨tangledTable, htable⟩, fun s t ordinal => (hentries _ htable s t ordinal).2⟩

/-- The table of `nested`. -/
def nestedTable : PredictiveTable :=
  ⟨[(⟨2, endMarkId⟩, 2), (⟨2, 3⟩, 1), (⟨2, 4⟩, 2)]⟩

theorem nested_predictiveTable : nested.predictiveTable .failFast = .ok nestedTable :=
  rfl

end Grammar

end GrammarTables
