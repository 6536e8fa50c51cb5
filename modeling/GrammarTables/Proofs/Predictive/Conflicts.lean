import GrammarTables.Proofs.Grammar.Ordinals
import GrammarTables.Proofs.Predictive.Table

/-!
# Proofs/Predictive/Conflicts — what is reported of a table that cannot be filled

Filling compares every prediction with the first one of all for its cell (`clashesAmong`).  Which
production claims a cell first is a question about the productions and not about that list
(`get?_predictions`), and **the conflicts are those of each production with the earliest one of its
left side** (`Built.conflicts_exact`).
-/

namespace GrammarTables

namespace Grammar

variable {g : Grammar} {sets : Sets} {p : Production} {s t : SymbolId}

/-! ## Claims -/

/-- PREDICT of a production. -/
def predictSet (g : Grammar) (p : Production) : List SymbolId :=
  (g.predictOf p.left p.alternative).toOption.getD []

/-- The productions of `s` that are predicted on `t`, in the order of their ordinals. -/
def claimants (g : Grammar) (s t : SymbolId) : List Production :=
  g.productions.filter fun p => p.left = s && (g.predictSet p).contains t

/-- The smallest ordinal below that of `p` among the productions with its left side that are
predicted on `t`. -/
def earliestBefore? (g : Grammar) (p : Production) (t : SymbolId) : Option Nat :=
  (((g.claimants p.left t).filter fun q => q.ordinal < p.ordinal).map Production.ordinal).min?

/-- The conflicts, by ordinal and then by lookahead. -/
def clashes (g : Grammar) : List PredictConflict :=
  g.productions.flatMap fun p => (g.predictSet p).filterMap fun t =>
    (g.earliestBefore? p t).map fun first => ⟨g.nameOf p.left, g.nameOf t, first, p.ordinal⟩

theorem mem_claimants : p ∈ g.claimants s t ↔
    p ∈ g.productions ∧ p.left = s ∧ t ∈ g.predictSet p := by
  rw [claimants, List.mem_filter, Bool.and_eq_true, decide_eq_true_iff, List.contains_iff_mem]

section

variable (hg : g.WellFormed)

include hg

theorem WellFormed.predictOf_eq_ok (hsets : g.sets = .ok sets) (hp : p ∈ g.productions) :
    g.predictOf p.left p.alternative = .ok (sets.predict g p.left p.right) := by
  rw [predictOf, hg.alternative_eq_right hp, hsets]
  rfl

theorem WellFormed.predictSet_eq (hsets : g.sets = .ok sets) (hp : p ∈ g.productions) :
    g.predictSet p = sets.predict g p.left p.right := by
  rw [predictSet, hg.predictOf_eq_ok hsets hp]
  rfl

/-- **There is a PREDICT set for every production**, an ascending list. -/
theorem WellFormed.predictOf_eq_predictSet (hp : p ∈ g.productions) :
    g.predictOf p.left p.alternative = .ok (g.predictSet p) ∧
      Ascending.IsAscending (g.predictSet p) := by
  obtain ⟨sets, hsets, hs⟩ := hg.exists_sets
  rw [hg.predictSet_eq hsets hp, hg.predictOf_eq_ok hsets hp]
  exact ⟨rfl, hs.isAscending_predict _ _⟩

theorem WellFormed.pairwise_ordinal :
    g.productions.Pairwise fun p q => p.ordinal < q.ordinal := by
  refine List.pairwise_map.mp ?_
  rw [hg.map_ordinal]
  exact List.pairwise_lt_range' 1

theorem WellFormed.pairwise_claimants (s t : SymbolId) :
    (g.claimants s t).Pairwise fun p q => p.ordinal < q.ordinal :=
  hg.pairwise_ordinal.filter _

/-- The claims of the productions are what filling goes through. -/
theorem WellFormed.predictions_eq (hsets : g.sets = .ok sets) : sets.predictions g =
    g.productions.flatMap fun p => (g.predictSet p).map fun t => (⟨p.left, t⟩, p.ordinal) :=
  List.flatMap_congr fun p hp => by rw [hg.predictSet_eq hsets hp]

omit hg in
/-- The claims to a cell among those of some productions. -/
theorem filter_flatMap_claims {predict : Production → List SymbolId} {ps : List Production}
    (hpredict : ∀ p ∈ ps, (predict p).Nodup) :
    (ps.flatMap fun p => (predict p).map fun t => ((⟨p.left, t⟩ : Cell), p.ordinal)).filter
        (fun entry => entry.1 = ⟨s, t⟩) =
      (ps.filter fun p => p.left = s && (predict p).contains t).map fun p =>
        (⟨s, t⟩, p.ordinal) := by
  have hone (p : Production) (hnodup : (predict p).Nodup) :
      ((predict p).map fun t => ((⟨p.left, t⟩ : Cell), p.ordinal)).filter
        (fun entry => entry.1 = ⟨s, t⟩) =
          if p.left = s && (predict p).contains t then [(⟨s, t⟩, p.ordinal)] else [] := by
    generalize predict p = set at hnodup
    induction set with
    | nil => simp
    | cons u us ih =>
      obtain ⟨hu, hus⟩ := List.nodup_cons.mp hnodup
      rw [List.map_cons, List.filter_cons, ih hus]
      by_cases hs : p.left = s
      · by_cases hut : u = t
        · simp [hs, hut, hut ▸ hu]
        · simp [hs, hut, Ne.symm hut]
      · simp [hs]
  induction ps with
  | nil => rfl
  | cons p ps ih =>
    obtain ⟨hp, hps⟩ := List.forall_mem_cons.mp hpredict
    rw [List.flatMap_cons, List.filter_append, hone p hp, ih hps, List.filter_cons]
    split <;> rfl

/-- **The claims to a cell, in the order of their ordinals.** -/
theorem WellFormed.filter_predictions (hsets : g.sets = .ok sets) :
    (sets.predictions g).filter (fun entry => entry.1 = ⟨s, t⟩) =
      (g.claimants s t).map fun p => (⟨s, t⟩, p.ordinal) := by
  rw [hg.predictions_eq hsets]
  exact filter_flatMap_claims fun p hp => (hg.predictOf_eq_predictSet hp).2.nodup

/-- A cell belongs to the first production that claims it. -/
theorem WellFormed.get?_predictions (hsets : g.sets = .ok sets) :
    Ascending.get? ⟨s, t⟩ (sets.predictions g) =
      (g.claimants s t).head?.map Production.ordinal := by
  rw [Ascending.get?, ← List.head?_filter, hg.filter_predictions hsets, List.head?_map,
    Option.map_map]
  rfl

/-- The holder of a cell is the earliest production before any later claimant. -/
theorem WellFormed.clash?_eq (hp : p ∈ g.claimants s t) :
    Cell.clash? ⟨s, t⟩ g p.ordinal ((g.claimants s t).head?.map Production.ordinal) =
      (g.earliestBefore? p t).map fun first => ⟨g.nameOf s, g.nameOf t, first, p.ordinal⟩ := by
  obtain ⟨-, rfl, -⟩ := mem_claimants.mp hp
  have hsorted := hg.pairwise_claimants p.left t
  have hmin : g.earliestBefore? p t =
      (((g.claimants p.left t).filter fun q => q.ordinal < p.ordinal).map
        Production.ordinal).head? := by
    refine List.min?_eq_head? (List.pairwise_map.mpr ((hsorted.filter _).imp fun hlt => ?_))
    exact Nat.min_eq_left (Nat.le_of_lt hlt)
  rw [hmin]
  cases hclaimants : g.claimants p.left t with
  | nil =>
    rw [hclaimants] at hp
    exact absurd hp List.not_mem_nil
  | cons q rest =>
    rw [hclaimants] at hp hsorted
    obtain ⟨hfirst, -⟩ := List.pairwise_cons.mp hsorted
    rcases List.mem_cons.mp hp with rfl | hp
    · -- the holder itself has nothing before it
      have hnone : (p :: rest).filter (fun q => q.ordinal < p.ordinal) = [] := by
        refine List.filter_eq_nil_iff.mpr fun q hq hlt => ?_
        rcases List.mem_cons.mp hq with rfl | hq
        · exact Nat.lt_irrefl _ (of_decide_eq_true hlt)
        · exact Nat.lt_asymm (hfirst q hq) (of_decide_eq_true hlt)
      rw [hnone]
      exact if_pos rfl
    · have hlt := hfirst p hp
      have hkept : (q :: rest).filter (fun r => r.ordinal < p.ordinal) =
          q :: rest.filter fun r => r.ordinal < p.ordinal :=
        List.filter_cons_of_pos (decide_eq_true hlt)
      rw [hkept]
      exact if_neg (Nat.ne_of_lt hlt)

/-- **What filling meets are the conflicts of the productions.** -/
theorem WellFormed.clashesAmong_predictions (hsets : g.sets = .ok sets) :
    clashesAmong g (sets.predictions g) (sets.predictions g) = g.clashes := by
  rw [clashesAmong]
  conv_lhs => rw [hg.predictions_eq hsets, List.filterMap_flatMap]
  refine List.flatMap_congr fun p hp => ?_
  rw [List.filterMap_map]
  refine List.filterMap_congr fun t ht => ?_
  rw [Function.comp_apply, ← hg.predictions_eq hsets, hg.get?_predictions hsets]
  exact hg.clash?_eq (mem_claimants.mpr ⟨hp, rfl, ht⟩)

/-- **Filling succeeds when there is no conflict**, and otherwise reports as many as the policy
says.  The table, the same for both policies, has the first claimants. -/
theorem WellFormed.predictiveTable_eq : ∃ table : PredictiveTable,
    (∀ s t, table.get? s t = (g.claimants s t).head?.map Production.ordinal) ∧
    ∀ policy : ConflictPolicy, g.predictiveTable policy = if g.clashes.isEmpty then .ok table
      else .error (.conflicts (policy.reported g.clashes)) := by
  obtain ⟨sets, hsets, -⟩ := hg.exists_sets
  refine ⟨(sets.predictions g).foldl PredictiveTable.claim .empty, fun s t => ?_, fun policy => ?_⟩
  · rw [← hg.get?_predictions hsets]
    exact PredictiveTable.agrees_empty.foldl_claim.get?_eq ⟨s, t⟩
  · rw [predictiveTable, hsets]
    dsimp only
    rw [fill_eq PredictiveTable.agrees_empty fun _ => rfl, List.nil_append, List.nil_append,
      hg.clashesAmong_predictions hsets]
    cases g.clashes.isEmpty <;> rfl

end

/-- **Conflict reports are exact.**  What collecting reports is, for the productions by ordinal and
for their predictions in ascending order, the conflict with the smallest ordinal before them that is
predicted there too.  Failing fast reports the first of these, and when there are none both policies
make the same table. -/
theorem Built.conflicts_exact (hg : g.Built) :
    g.productions.map Production.ordinal = List.range' 1 g.productions.length ∧
    (∀ p ∈ g.productions, g.predictOf p.left p.alternative = .ok (g.predictSet p) ∧
      Ascending.IsAscending (g.predictSet p)) ∧
    (g.clashes = [] → ∃ table, ∀ policy, g.predictiveTable policy = .ok table) ∧
    ∀ first rest, g.clashes = first :: rest →
      g.predictiveTable .collect = .error (.conflicts (first :: rest)) ∧
      g.predictiveTable .failFast = .error (.conflicts [first]) := by
  have hwell := hg.wellFormed
  obtain ⟨table, -, htable⟩ := hwell.predictiveTable_eq
  refine ⟨hwell.map_ordinal, fun p hp => hwell.predictOf_eq_predictSet hp, fun hnone => ?_,
    fun first rest hsome => ⟨?_, ?_⟩⟩
  · refine ⟨table, fun policy => ?_⟩
    rw [htable, hnone]
    rfl
  · rw [htable, hsome]
    rfl
  · rw [htable, hsome]
    rfl

/-- The grammar `S -> A | a | b | A c`, `A -> a | b`: the last alternative of `S` conflicts in two
cells, and both of these have three claimants. -/
def crowded : Grammar :=
  ⟨[.epsilon, .endMark, .nonTerminal "S" [[3], [4], [5], [3, 6]], .nonTerminal "A" [[4], [5]],
    .terminal "a", .terminal "b", .terminal "c"], 2,
    [⟨1, 3, 0, [4]⟩, ⟨2, 3, 1, [5]⟩, ⟨3, 2, 0, [3]⟩, ⟨4, 2, 1, [4]⟩, ⟨5, 2, 2, [5]⟩,
      ⟨6, 2, 3, [3, 6]⟩]⟩

theorem crowded_built : crowded.Built :=
  ⟨[.nonTerminal "S", .nonTerminal "A", .terminal "a", .terminal "b", .terminal "c",
    .production 2 [3], .production 2 [4], .production 2 [5], .production 2 [3, 6],
    .production 3 [4], .production 3 [5], .start 2], rfl⟩

theorem crowded_clashes : crowded.clashes =
    [⟨"S", "a", 3, 4⟩, ⟨"S", "b", 3, 5⟩, ⟨"S", "a", 3, 6⟩, ⟨"S", "b", 3, 6⟩] :=
  rfl

theorem conflicts_exact_crowded :
    crowded.predictiveTable .collect = .error (.conflicts
      [⟨"S", "a", 3, 4⟩, ⟨"S", "b", 3, 5⟩, ⟨"S", "a", 3, 6⟩, ⟨"S", "b", 3, 6⟩]) ∧
    crowded.predictiveTable .failFast = .error (.conflicts [⟨"S", "a", 3, 4⟩]) := by
  obtain ⟨-, -, -, hclashes⟩ := crowded_built.conflicts_exact
  exact hclashes _ _ crowded_clashes

end Grammar

end GrammarTables
