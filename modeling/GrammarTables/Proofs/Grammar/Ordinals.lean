import GrammarTables.Proofs.Grammar.Spelling

/-!
# Proofs/Grammar/Ordinals — the order of the productions

A grammar lists its productions by the names of their left sides, and those of one left side by
their place there (`Built.pairwise_precedes`).  Ordinals count this list from 1, so they are in the
same order (`Built.ordinal_lt_iff`), and an ordinal and an alternative lead to each other:
`production?` and `productionOf` are inverse (`WellFormed.production?_eq_some_iff`,
`WellFormed.productionOf_eq_ok_iff`).
-/

namespace GrammarTables

variable {g : Grammar} {p q : Production} {s : SymbolId} {number ordinal : Nat}

/-- Names are ordered by their code points. -/
theorem compare_eq_lt_iff {a b : String} : compare a b = .lt ↔ a < b :=
  compareOfLessAndEq_eq_lt

namespace Grammar

/-- The left side has the smaller name, or the alternative comes first on the same left side. -/
def Precedes (g : Grammar) (p q : Production) : Prop :=
  g.nameOf p.left < g.nameOf q.left ∨ p.left = q.left ∧ p.alternative < q.alternative

theorem Precedes.asymm (h : g.Precedes p q) : ¬ g.Precedes q p := by
  rintro (hlt | ⟨hleft, hlt⟩)
  · rcases h with h | ⟨hleft, -⟩
    · exact String.lt_asymm h hlt
    · exact String.lt_irrefl _ (hleft ▸ hlt)
  · rcases h with h | ⟨-, h⟩
    · exact String.lt_irrefl _ (hleft ▸ h)
    · exact Nat.lt_asymm h hlt

/-! ## The order of the list -/

/-- The non-terminals stand in the order of their names, each once. -/
theorem WellFormed.pairwise_nonTerminalsByName (hg : g.WellFormed) :
    g.nonTerminalsByName.Pairwise fun nt nt' => nt.name < nt'.name := by
  have hnodup : (g.nonTerminalsByName.map NonTerminal.name).Nodup :=
    (Ascending.perm_sortBy.map _).nodup_iff.mpr hg.nodup_names
  refine (Ascending.sorted_sortBy.and (List.pairwise_map.mp hnodup)).imp fun ⟨hle, hne⟩ => ?_
  refine compare_eq_lt_iff.mp (Ordering.isLE_iff_eq_lt_or_eq_eq.mp hle |>.resolve_right ?_)
  exact fun heq => hne (Std.LawfulEqCmp.eq_of_compare heq)

/-- **The productions stand in the order of their left sides and alternatives.** -/
theorem Built.pairwise_precedes (hg : g.Built) : g.productions.Pairwise g.Precedes := by
  -- the order looks at left side and alternative only, so the ordinals may be forgotten
  let InOrder (key key' : SymbolId × Nat) : Prop :=
    g.nameOf key.1 < g.nameOf key'.1 ∨ key.1 = key'.1 ∧ key.2 < key'.2
  have hkeys : g.productions.map (fun p => (p.left, p.alternative)) =
      g.nonTerminalsByName.flatMap fun nt =>
        (List.range' 0 nt.alternatives.length).map (Prod.mk nt.index) := by
    rw [hg.productions_eq, map_numberedProductions fun _ _ => rfl, List.map_flatMap]
    exact List.flatMap_congr fun nt _ => NonTerminal.map_productions
  have hordered : (g.productions.map fun p => (p.left, p.alternative)).Pairwise InOrder := by
    rw [hkeys, List.pairwise_flatMap]
    constructor
    · intro nt _
      exact List.pairwise_map.mpr ((List.pairwise_lt_range' ..).imp fun hlt => Or.inr ⟨rfl, hlt⟩)
    · refine hg.wellFormed.pairwise_nonTerminalsByName.imp_of_mem fun hnt hnt' hlt => ?_
      intro key hkey key' hkey'
      obtain ⟨i, -, rfl⟩ := List.mem_map.mp hkey
      obtain ⟨j, -, rfl⟩ := List.mem_map.mp hkey'
      refine Or.inl ?_
      rwa [nameOf_index_of_mem (Ascending.mem_sortBy.mp hnt),
        nameOf_index_of_mem (Ascending.mem_sortBy.mp hnt')]
  exact (List.pairwise_map.mp hordered :)

/-- What the alternatives of a non-terminal say, without their ordinals, in the order of the
productions. -/
theorem Built.map_filter_left (hg : g.Built) {nt : NonTerminal} (hnt : nt ∈ g.nonTerminals)
    {γ : Type} {f : Production → γ} (hf : ∀ p ordinal, f { p with ordinal := ordinal } = f p) :
    (g.productions.filter fun p => p.left = nt.index).map f = nt.productions.map f := by
  have hnodup : (g.nonTerminalsByName.map NonTerminal.index).Nodup :=
    (Ascending.perm_sortBy.map _).nodup_iff.mpr
      (List.pairwise_map.mpr pairwise_index_nonTerminalsOf)
  have hpick (ps : List Production) : (ps.filter fun p => p.left = nt.index).map f =
      ((ps.map fun p => (p.left, f p)).filter fun entry => entry.1 = nt.index).map Prod.snd := by
    rw [List.filter_map, List.map_map]
    rfl
  have hgroup : (g.nonTerminalsByName.flatMap NonTerminal.productions).filter
      (fun p => p.left = nt.index) = nt.productions := by
    rw [filter_flatMap_of_key fun nt _ p hp => (NonTerminal.mem_productions.mp hp).2.1,
      filter_key_eq_singleton hnodup (Ascending.mem_sortBy.mpr hnt), List.flatMap_singleton]
  have hforget : g.productions.map (fun p => (p.left, f p)) =
      (g.nonTerminalsByName.flatMap NonTerminal.productions).map fun p => (p.left, f p) := by
    rw [hg.productions_eq]
    exact map_numberedProductions fun p ordinal => congrArg (Prod.mk p.left) (hf p ordinal)
  rw [hpick, hforget, ← hpick, hgroup]

/-! ## Ordinals -/

section

variable (hg : g.WellFormed)

include hg

/-- Ordinals count the productions from 1. -/
theorem WellFormed.map_ordinal :
    g.productions.map Production.ordinal = List.range' 1 g.productions.length := by
  refine List.ext_getElem (by simp) fun i hi hi' => ?_
  rw [List.length_map] at hi
  rw [List.getElem_map, hg.ordinal_eq (List.getElem?_eq_getElem hi), List.getElem_range']
  omega

theorem WellFormed.production?_eq_some_iff :
    g.production? ordinal = some p ↔ p ∈ g.productions ∧ p.ordinal = ordinal := by
  refine ⟨mem_of_production?, ?_⟩
  rintro ⟨hp, rfl⟩
  exact hg.production?_ordinal hp

/-- **The ordinals are the numbers up to that of the productions.** -/
theorem WellFormed.exists_production?_iff :
    (∃ p, g.production? ordinal = some p) ↔ 1 ≤ ordinal ∧ ordinal ≤ g.productions.length := by
  have hmem : ordinal ∈ g.productions.map Production.ordinal ↔
      1 ≤ ordinal ∧ ordinal ≤ g.productions.length := by
    rw [hg.map_ordinal, List.mem_range'_1]
    omega
  rw [← hmem, List.mem_map]
  exact exists_congr fun p => hg.production?_eq_some_iff

omit hg in
theorem alternative_eq_ok_iff {right : List SymbolId} : g.alternative s number = .ok right ↔
    ∃ name alternatives, g.symbol? s = some (.nonTerminal name alternatives) ∧
      alternatives[number]? = some right := by
  rw [alternative, Grammar.alternatives, symbol]
  cases g.symbol? s with
  | none => simp
  | some symbol =>
    cases symbol with
    | nonTerminal name alternatives => cases h : alternatives[number]? <;> simp [h]
    | _ => simp

theorem WellFormed.alternative_eq_right (hp : p ∈ g.productions) :
    g.alternative p.left p.alternative = .ok p.right :=
  alternative_eq_ok_iff.mpr (hg.alternative_of_mem hp)

theorem WellFormed.productionOf_eq_ok_iff : g.productionOf s number = .ok p ↔
    p ∈ g.productions ∧ p.left = s ∧ p.alternative = number := by
  rw [productionOf]
  constructor
  · intro h
    split at h
    · exact nomatch h
    · split at h
      · next q hq =>
        obtain rfl := Except.ok.inj h
        have hfound := List.find?_some hq
        rw [Bool.and_eq_true, decide_eq_true_eq, decide_eq_true_eq] at hfound
        exact ⟨List.mem_of_find?_eq_some hq, hfound⟩
      · exact nomatch h
  · rintro ⟨hp, rfl, rfl⟩
    rw [hg.alternative_eq_right hp]
    dsimp only
    cases hfound : g.productions.find? fun q =>
        q.left = p.left && q.alternative = p.alternative with
    | none => simpa using List.find?_eq_none.mp hfound p hp
    | some q =>
      have hq := List.find?_some hfound
      rw [Bool.and_eq_true, decide_eq_true_eq, decide_eq_true_eq] at hq
      exact congrArg _ (hg.eq_of_alternative_eq (List.mem_of_find?_eq_some hfound) hp hq.1 hq.2)

/-- **There is a production for each alternative** and for nothing else. -/
theorem WellFormed.exists_productionOf_iff : (∃ p, g.productionOf s number = .ok p) ↔
    ∃ name alternatives, g.symbol? s = some (.nonTerminal name alternatives) ∧
      number < alternatives.length := by
  constructor
  · rintro ⟨p, h⟩
    obtain ⟨hp, rfl, rfl⟩ := hg.productionOf_eq_ok_iff.mp h
    obtain ⟨name, alternatives, hs, hright⟩ := hg.alternative_of_mem hp
    exact ⟨name, alternatives, hs, (List.getElem?_eq_some_iff.mp hright).1⟩
  · rintro ⟨name, alternatives, hs, hlt⟩
    obtain ⟨p, hp, hleft, hnumber, -⟩ := hg.mem_of_alternative hs (List.getElem?_eq_getElem hlt)
    exact ⟨p, hg.productionOf_eq_ok_iff.mpr ⟨hp, hleft, hnumber⟩⟩

end

/-- **Ordinals are in the order of left sides and alternatives.** -/
theorem Built.ordinal_lt_iff (hg : g.Built) (hp : p ∈ g.productions) (hq : q ∈ g.productions) :
    p.ordinal < q.ordinal ↔ g.Precedes p q := by
  have hordered := List.pairwise_iff_getElem.mp hg.pairwise_precedes
  obtain ⟨i, hi, rfl⟩ := List.getElem_of_mem hp
  obtain ⟨j, hj, rfl⟩ := List.getElem_of_mem hq
  rw [hg.wellFormed.ordinal_eq (List.getElem?_eq_getElem hi),
    hg.wellFormed.ordinal_eq (List.getElem?_eq_getElem hj), Nat.add_lt_add_iff_right]
  refine ⟨hordered i j hi hj, fun h => ?_⟩
  rcases Nat.lt_trichotomy i j with hij | rfl | hji
  · exact hij
  · exact absurd h h.asymm
  · exact absurd h (hordered j i hj hi hji).asymm

end Grammar

end GrammarTables
