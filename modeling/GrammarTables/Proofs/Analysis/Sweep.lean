import GrammarTables.Analysis.Sweep
import GrammarTables.Proofs.Analysis.Follow

/-!
# Proofs/Analysis/Sweep — sweeping in place settles, on the same sets

A visit is truthful when it changes nothing unless it says so, and otherwise brings in an element of
a finite set (`Truthful`).  A sweep of truthful visits is truthful, and as there are fewer elements
than the round limit counts, **some sweep within the limit is quiet** (`Truthful.exists_quiet`).

FIRST is replaced, not added to, and only the sizes are compared.  What makes its visits truthful is
that whatever is stored is found again (`PartialFirst.refound`).

A quiet value is closed under the rules, and no visit leaves the least closed sets; so sweeping and
rounds end with the same sets (`WellFormed.sweptSets_eq`).
-/

namespace GrammarTables

/-! ## Truthful steps -/

section Truthful

variable {α β γ : Type} {motive : α → Prop} {Holds : α → β → Prop} {elements : Finset β}
  {step : α → α × Bool} {visit : γ → α → α × Bool} {cs : List γ} {value : α}

/-- A step that keeps an invariant and whatever holds, and tells whether something new holds. -/
structure Truthful (motive : α → Prop) (Holds : α → β → Prop) (elements : Finset β)
    (step : α → α × Bool) : Prop where
  keep : ∀ {v : α}, motive v → motive (step v).1
  grows : ∀ {v : α}, motive v → ∀ {b : β}, Holds v b → Holds (step v).1 b
  quiet : ∀ {v : α}, motive v → (step v).2 = false → (step v).1 = v
  new : ∀ {v : α}, motive v → (step v).2 = true → ∃ b ∈ elements, Holds (step v).1 b ∧ ¬ Holds v b

/-- A step that does nothing is truthful. -/
theorem truthful_idle : Truthful motive Holds elements fun v => (v, false) :=
  ⟨id, fun _ _ h => h, fun _ _ => rfl, fun _ h => nomatch h⟩

/-- **A sweep of truthful visits is truthful.** -/
theorem Truthful.sweepOver (h : ∀ c ∈ cs, Truthful motive Holds elements (visit c)) :
    Truthful motive Holds elements (sweepOver visit cs) := by
  induction cs with
  | nil => exact truthful_idle
  | cons c cs ih =>
    have hfirst := h c List.mem_cons_self
    have hrest := ih fun c' hc' => h c' (List.mem_cons_of_mem _ hc')
    constructor
    case keep => exact fun hv => hrest.keep (hfirst.keep hv)
    case grows => exact fun hv _ hb => hrest.grows (hfirst.keep hv) (hfirst.grows hv hb)
    case quiet =>
      intro v hv hflag
      obtain ⟨hquiet, hquiet'⟩ := Bool.or_eq_false_iff.mp hflag
      exact (hrest.quiet (hfirst.keep hv) hquiet').trans (hfirst.quiet hv hquiet)
    case new =>
      intro v hv hflag
      rcases (Bool.or_eq_true _ _).mp hflag with hnoisy | hnoisy
      · obtain ⟨b, hb, hnext, hold⟩ := hfirst.new hv hnoisy
        exact ⟨b, hb, hrest.grows (hfirst.keep hv) hnext, hold⟩
      · obtain ⟨b, hb, hnext, hold⟩ := hrest.new (hfirst.keep hv) hnoisy
        exact ⟨b, hb, hnext, fun hb => hold (hfirst.grows hv hb)⟩

/-- In a quiet sweep every visit is quiet. -/
theorem Truthful.visit_eq_of_quiet (h : ∀ c ∈ cs, Truthful motive Holds elements (visit c))
    (hv : motive value) (hquiet : (GrammarTables.sweepOver visit cs value).2 = false) :
    ∀ c ∈ cs, visit c value = (value, false) := by
  induction cs with
  | nil => exact fun c hc => absurd hc List.not_mem_nil
  | cons c cs ih =>
    have hfirst := h c List.mem_cons_self
    obtain ⟨hflag, hrest⟩ := Bool.or_eq_false_iff.mp hquiet
    have hvisit : visit c value = (value, false) := Prod.ext (hfirst.quiet hv hflag) hflag
    rw [hvisit] at hrest
    intro c' hc'
    rcases List.mem_cons.mp hc' with rfl | hc'
    · exact hvisit
    · exact ih (fun c' hc' => h c' (List.mem_cons_of_mem _ hc')) hrest c' hc'

/-- Sweeping until a sweep is quiet is what settles. -/
theorem Truthful.sweepUntilQuiet_eq [DecidableEq α] (h : Truthful motive Holds elements step)
    (hv : motive value) (limit : Nat) :
    sweepUntilQuiet step limit value = settle? (fun v => (step v).1) limit value := by
  induction limit generalizing value with
  | zero => rfl
  | succ limit ih =>
    rw [settle?]
    change (if (step value).2 then sweepUntilQuiet step limit (step value).1
      else some (step value).1) = _
    cases hflag : (step value).2 with
    | false => rw [if_neg Bool.false_ne_true, if_pos (h.quiet hv hflag), h.quiet hv hflag]
    | true =>
      obtain ⟨b, -, hnext, hold⟩ := h.new hv hflag
      have hne : (step value).1 ≠ value := fun heq => hold (heq ▸ hnext)
      rw [if_pos rfl, if_neg hne]
      exact ih (h.keep hv)

/-- **Of more truthful sweeps than there are elements, one is quiet.** -/
theorem Truthful.exists_quiet [DecidableEq α] {limit : Nat}
    (h : Truthful motive Holds elements step) (hv : motive value)
    (hlimit : elements.card < limit) :
    ∃ result, sweepUntilQuiet step limit value = some result ∧ motive result ∧
      (step result).2 = false := by
  have hsome : (settle? (fun v => (step v).1) limit value).isSome := by
    refine settle?_isSome_of_finite Holds elements hv (fun v hv => h.keep hv)
      (fun v hv b hb => h.grows hv hb) (fun v hv hne => h.new hv ?_) hlimit
    exact Bool.eq_true_of_not_eq_false fun hflag => hne (h.quiet hv hflag)
  obtain ⟨result, hresult⟩ := Option.isSome_iff_exists.mp hsome
  have hmotive : motive result := settle?_induction hresult hv fun v hv => h.keep hv
  refine ⟨result, (h.sweepUntilQuiet_eq hv limit).trans hresult, hmotive, ?_⟩
  refine Bool.eq_false_of_not_eq_true fun hflag => ?_
  obtain ⟨b, -, hnext, hold⟩ := h.new hmotive hflag
  have hfix : (step result).1 = result := (settle?_eq_some hresult).1
  exact hold (hfix ▸ hnext)

end Truthful

/-! ## Visits that add -/

/-- A set that is no larger than one of its subsets is the subset. -/
theorem eq_of_length_eq {as bs : List SymbolId} (has : Ascending.IsAscending as)
    (hbs : Ascending.IsAscending bs) (hsub : ∀ s ∈ as, s ∈ bs) (hlength : bs.length = as.length) :
    bs = as := by
  have hcard : bs.toFinset.card ≤ as.toFinset.card := by
    rw [List.toFinset_card_of_nodup has.nodup, List.toFinset_card_of_nodup hbs.nodup, hlength]
  have hfinset : as.toFinset = bs.toFinset := by
    refine Finset.eq_of_subset_of_card_le (fun s hs => ?_) hcard
    exact List.mem_toFinset.mpr (hsub s (List.mem_toFinset.mp hs))
  refine Ascending.eq_of_mem_iff hbs has fun s => ?_
  rw [← List.mem_toFinset, ← hfinset, List.mem_toFinset]

namespace SetTable

variable {g : Grammar} {table : SetTable} {s : SymbolId} {set : List SymbolId}

/-- An addition that does not change the size of the set changes nothing. -/
theorem Fits.add_eq_of_length_eq (h : table.Fits g) (hset : Addable g [(s, set)])
    (hlength : ((table.add s set).of s).length = (table.of s).length) : table.add s set = table := by
  have hnext : (table.add s set).Fits g := h.addAll hset
  have hof : (table.add s set).of s = table.of s :=
    eq_of_length_eq (h.isAscending_of s) (hnext.isAscending_of s)
      (fun t ht => mem_of_add.mpr (Or.inl ht)) hlength
  refine eq_of_of_eq length_add fun t => ?_
  by_cases hs : s = t
  · subst hs
    exact hof
  · rw [of_add, if_neg fun h => hs h.1]

/-- Tables with the same members are the same. -/
theorem Fits.eq_of_mem_iff {table' : SetTable} (h : table.Fits g) (h' : table'.Fits g)
    (hmem : ∀ s t, t ∈ table.of s ↔ t ∈ table'.of s) : table = table' :=
  eq_of_of_eq (h.length_eq.trans h'.length_eq.symm) fun s =>
    Ascending.eq_of_mem_iff (h.isAscending_of s) (h'.isAscending_of s) (hmem s)

theorem Addable.singleton {more : List (SymbolId × List SymbolId)} (h : Addable g more)
    (hmem : (s, set) ∈ more) : Addable g [(s, set)] where
  isAscending := fun _ hentry => h.isAscending _ (List.mem_singleton.mp hentry ▸ hmem)
  isNonTerminal := fun _ hentry => h.isNonTerminal _ (List.mem_singleton.mp hentry ▸ hmem)
  isLiteral := fun _ hentry => h.isLiteral _ (List.mem_singleton.mp hentry ▸ hmem)

end SetTable

/-- **A visit that adds what fits is truthful.** -/
theorem truthful_of_addNoting {g : Grammar} (hg : g.WellFormed) {motive : SetTable → Prop}
    {step : SetTable → SetTable × Bool} {s : SymbolId} {more : SetTable → List SymbolId}
    (hstep : ∀ table, motive table → step table = table.addNoting s (more table))
    (fits : ∀ table, motive table → table.Fits g)
    (addable : ∀ table, motive table → SetTable.Addable g [(s, more table)])
    (keep : ∀ table, motive table → motive (table.add s (more table))) :
    Truthful motive (fun (table : SetTable) (pair : SymbolId × SymbolId) =>
      pair.2 ∈ table.of pair.1) g.pairs step := by
  constructor
  case keep =>
    intro table hv
    rw [hstep table hv]
    exact keep table hv
  case grows =>
    intro table hv pair hpair
    rw [hstep table hv]
    exact SetTable.mem_of_add.mpr (Or.inl hpair)
  case quiet =>
    intro table hv hflag
    rw [hstep table hv] at hflag ⊢
    refine (fits table hv).add_eq_of_length_eq (addable table hv) ?_
    simpa [SetTable.addNoting] using hflag
  case new =>
    intro table hv hflag
    rw [hstep table hv] at hflag ⊢
    have hlength : ((table.add s (more table)).of s).length ≠ (table.of s).length := by
      simpa [SetTable.addNoting] using hflag
    have hne : table.addAll [(s, more table)] ≠ table := fun heq =>
      hlength (congrArg (fun table => (SetTable.of table s).length) heq)
    obtain ⟨r, t, ht, hnew⟩ := (fits table hv).exists_new (addable table hv) hne
    have hnext := fits _ (keep table hv)
    exact ⟨(r, t), hg.mem_pairs (hnext.isNonTerminal ht) (hnext.isLiteral ht), ht, hnew⟩

namespace Grammar

variable {g : Grammar} {sets : Sets} {nullable : List SymbolId} {first follow : SetTable}
  {nt : NonTerminal} {p : Production} {s t : SymbolId} {w right : List SymbolId}

section

variable (hg : g.WellFormed)

include hg

/-- No literal is nullable, so it need not be looked for. -/
theorem vanishes_eq (h : NullableFits g nullable) :
    vanishes g nullable w = nullableSequence nullable w := by
  rw [vanishes, Bool.and_eq_right_iff_imp]
  intro hnull
  rw [Bool.not_eq_true', containsLiteral, List.any_eq_false]
  exact fun s hs => h.not_isLiteral hg (nullableSequence_iff.mp hnull s hs)

end

/-! ## Nullable symbols -/

/-- A set on the way to the nullable symbols. -/
structure PartialNullable (g : Grammar) (sets : Sets) (nullable : List SymbolId) : Prop where
  fits : NullableFits g nullable
  epsilon_mem : epsilonId ∈ nullable
  sound : ∀ s ∈ nullable, s ∈ sets.nullable

/-- What a visit can do. -/
theorem visitNullable_cases (g : Grammar) (nt : NonTerminal) (nullable : List SymbolId) :
    visitNullable g nt nullable = (nullable, false) ∨
      nt.index ∉ nullable ∧ (∃ right ∈ nt.alternatives, vanishes g nullable right) ∧
        visitNullable g nt nullable = (Ascending.insert nt.index nullable, true) := by
  rw [visitNullable]
  split
  · exact Or.inl rfl
  · next hmem =>
    split
    · next hany =>
      rw [List.contains_iff_mem] at hmem
      exact Or.inr ⟨hmem, List.any_eq_true.mp hany, rfl⟩
    · exact Or.inl rfl

theorem mem_of_visitNullable_eq (h : visitNullable g nt nullable = (nullable, false))
    (hright : right ∈ nt.alternatives) (hvanishes : vanishes g nullable right) :
    nt.index ∈ nullable := by
  rw [visitNullable] at h
  split at h
  · next hmem => exact List.contains_iff_mem.mp hmem
  · rw [if_pos (List.any_eq_true.mpr ⟨right, hright, hvanishes⟩)] at h
    exact nomatch (Prod.mk.inj h).2

section

variable (hg : g.WellFormed) (hs : sets.Settled g)

include hg hs

theorem truthful_visitNullable (hnt : nt ∈ g.nonTerminals) :
    Truthful (PartialNullable g sets) (fun nullable s => s ∈ nullable) g.lefts
      (visitNullable g nt) := by
  constructor
  case keep =>
    intro v hv
    rcases visitNullable_cases g nt v with h | ⟨-, ⟨right, hright, hvanishes⟩, h⟩
    · rwa [h]
    · rw [h]
      have hleft : nt.index ∈ sets.nullable := by
        obtain ⟨p, hp, hleft, rfl⟩ := (hg.mem_alternatives_iff hnt).mp hright
        rw [vanishes_eq hg hv.fits, nullableSequence_iff] at hvanishes
        rw [← hleft]
        exact hs.left_mem_nullable hp
          (Sets.Settled.nullableAll_iff.mpr fun s hs => hv.sound s (hvanishes s hs))
      constructor
      case fits =>
        refine ⟨Ascending.isAscending_insert hv.fits.isAscending, fun hs => ?_⟩
        exact (Ascending.mem_insert.mp hs).elim
          (fun h => Or.inr (h ▸ isNonTerminal_index hnt)) hv.fits.isNonTerminal
      case epsilon_mem => exact Ascending.mem_insert.mpr (Or.inr hv.epsilon_mem)
      case sound =>
        exact fun s hs => (Ascending.mem_insert.mp hs).elim (fun h => h ▸ hleft) (hv.sound s)
  case grows =>
    intro v _ s hs
    rcases visitNullable_cases g nt v with h | ⟨-, -, h⟩
    · rwa [h]
    · rw [h]
      exact Ascending.mem_insert.mpr (Or.inr hs)
  case quiet =>
    intro v _ hflag
    rcases visitNullable_cases g nt v with h | ⟨-, -, h⟩
    · rw [h]
    · rw [h] at hflag
      exact nomatch hflag
  case new =>
    intro v _ hflag
    rcases visitNullable_cases g nt v with h | ⟨hnew, -, h⟩
    · rw [h] at hflag
      exact nomatch hflag
    · rw [h]
      exact ⟨nt.index, hg.mem_lefts (isNonTerminal_index hnt),
        Ascending.mem_insert.mpr (Or.inl rfl), hnew⟩

/-- **Sweeping finds the nullable symbols.** -/
theorem nullable_swept :
    sweepUntilQuiet g.nullableSweep g.roundLimit [epsilonId] = some sets.nullable := by
  have hvisits : ∀ nt ∈ g.nonTerminals, Truthful (PartialNullable g sets)
      (fun nullable s => s ∈ nullable) g.lefts (visitNullable g nt) :=
    fun nt hnt => truthful_visitNullable hg hs hnt
  have hstart : PartialNullable g sets [epsilonId] :=
    ⟨⟨List.pairwise_singleton _ _, fun hs => Or.inl (List.mem_singleton.mp hs)⟩,
      List.mem_cons_self, fun s hmem => List.mem_singleton.mp hmem ▸ hs.epsilon_mem_nullable⟩
  obtain ⟨result, hresult, hpartial, hquiet⟩ :=
    (Truthful.sweepOver hvisits).exists_quiet hstart hg.card_lefts_lt
  have hclosed := Truthful.visit_eq_of_quiet hvisits hpartial hquiet
  have hcomplete : ∀ s ∈ sets.nullable, s ∈ result := by
    refine settle?_induction hs.nullable_settled
      (motive := fun nullable => ∀ s ∈ nullable, s ∈ result) ?_ ?_
    · exact fun s hmem => List.mem_singleton.mp hmem ▸ hpartial.epsilon_mem
    · intro nullable ih s hmem
      rcases Ascending.mem_insertAll.mp hmem with hmem | hmem
      · obtain ⟨p, hp, rfl, hright⟩ := mem_moreNullable.mp hmem
        obtain ⟨nt, hnt, hindex, halternative⟩ := hg.exists_nonTerminal hp
        rw [← hindex]
        refine mem_of_visitNullable_eq (hclosed nt hnt) halternative ?_
        rw [vanishes_eq hg hpartial.fits, nullableSequence_iff]
        exact fun s hmem => ih s (nullableSequence_iff.mp hright s hmem)
      · exact ih s hmem
  have heq : result = sets.nullable :=
    Ascending.eq_of_mem_iff hpartial.fits.isAscending hs.nullable_fits.isAscending fun s =>
      ⟨hpartial.sound s, hcomplete s⟩
  exact heq ▸ hresult

end

/-! ## FIRST -/

theorem mem_foldl_union {f : List SymbolId → List SymbolId} {rights : List (List SymbolId)}
    {set : List SymbolId} :
    t ∈ rights.foldl (fun set right => Ascending.union (f right) set) set ↔
      t ∈ set ∨ ∃ right ∈ rights, t ∈ f right := by
  induction rights generalizing set with
  | nil => simp
  | cons right rights ih =>
    rw [List.foldl_cons, ih, Ascending.mem_union]
    simp only [List.mem_cons, exists_eq_or_imp]
    tauto

theorem isAscending_foldl_union {f : List SymbolId → List SymbolId}
    {rights : List (List SymbolId)} {set : List SymbolId} (hset : Ascending.IsAscending set)
    (hf : ∀ right ∈ rights, Ascending.IsAscending (f right)) :
    Ascending.IsAscending (rights.foldl (fun set right => Ascending.union (f right) set) set) := by
  induction rights generalizing set with
  | nil => exact hset
  | cons right rights ih =>
    exact ih (Ascending.isAscending_union (hf right List.mem_cons_self) hset) fun right h =>
      hf right (List.mem_cons_of_mem _ h)

/-- A table on the way to FIRST. -/
structure PartialFirst (g : Grammar) (sets : Sets) (first : SetTable) : Prop where
  fits : first.Fits g
  /-- Computing a set afresh finds what is stored. -/
  refound : ∀ {s t : SymbolId}, t ∈ first.of s →
    ∃ p ∈ g.productions, p.left = s ∧ t ∈ firstOfSequence g sets.nullable first p.right
  sound : ∀ {s t : SymbolId}, t ∈ first.of s → t ∈ sets.first.of s

section

variable (hg : g.WellFormed)

include hg

theorem mem_firstOfAlternatives (hnt : nt ∈ g.nonTerminals) :
    t ∈ firstOfAlternatives g nullable first nt ↔
      ∃ p ∈ g.productions, p.left = nt.index ∧ t ∈ firstOfSequence g nullable first p.right := by
  rw [firstOfAlternatives, mem_foldl_union]
  constructor
  · rintro (h | ⟨right, hright, ht⟩)
    · exact absurd h List.not_mem_nil
    · obtain ⟨p, hp, hleft, rfl⟩ := (hg.mem_alternatives_iff hnt).mp hright
      exact ⟨p, hp, hleft, ht⟩
  · rintro ⟨p, hp, hleft, ht⟩
    exact Or.inr ⟨p.right, (hg.mem_alternatives_iff hnt).mpr ⟨p, hp, hleft, rfl⟩, ht⟩

theorem addable_firstOfAlternatives (hfits : first.Fits g) (hnt : nt ∈ g.nonTerminals) :
    SetTable.Addable g [(nt.index, firstOfAlternatives g nullable first nt)] where
  isAscending := fun entry h => by
    rw [List.mem_singleton.mp h]
    exact isAscending_foldl_union Ascending.isAscending_nil fun right _ =>
      isAscending_firstOfSequence hfits.isAscending_of
  isNonTerminal := fun entry h => by
    rw [List.mem_singleton.mp h]
    exact isNonTerminal_index hnt
  isLiteral := fun entry h t ht => by
    rw [List.mem_singleton.mp h] at ht
    obtain ⟨p, -, -, ht⟩ := (mem_firstOfAlternatives hg hnt).mp ht
    exact isLiteral_of_mem_firstOfSequence hfits.isLiteral ht

/-- **A set computed afresh may as well be added**: what is stored is in it. -/
theorem PartialFirst.visitFirst_eq (h : PartialFirst g sets first) (hnt : nt ∈ g.nonTerminals) :
    visitFirst g sets.nullable nt first =
      first.addNoting nt.index (firstOfAlternatives g sets.nullable first nt) := by
  have haddable : SetTable.Addable g
      [(nt.index, firstOfAlternatives g sets.nullable first nt)] :=
    addable_firstOfAlternatives hg h.fits hnt
  have hfits := h.fits.addAll haddable
  have hlt : nt.index < first.length := by
    rw [h.fits.length_eq]
    exact lt_length_of_isNonTerminal (isNonTerminal_index hnt)
  have hof : (first.add nt.index (firstOfAlternatives g sets.nullable first nt)).of nt.index =
      firstOfAlternatives g sets.nullable first nt := by
    refine Ascending.eq_of_mem_iff (hfits.isAscending_of _)
      (haddable.isAscending _ List.mem_cons_self) fun t => ?_
    rw [SetTable.mem_of_add]
    constructor
    · rintro (ht | ⟨-, -, ht⟩)
      · exact (mem_firstOfAlternatives hg hnt).mpr (h.refound ht)
      · exact ht
    · exact fun ht => Or.inr ⟨rfl, hlt, ht⟩
  rw [visitFirst, SetTable.addNoting, hof]
  split
  · next hne =>
    refine Prod.ext ?_ (decide_eq_true hne).symm
    refine SetTable.eq_of_of_eq ?_ fun t => ?_
    · rw [SetTable.length_add, List.length_set]
    · by_cases ht : nt.index = t
      · subst ht
        rw [hof, SetTable.of, List.getElem?_set_self hlt]
        rfl
      · rw [SetTable.of_add, if_neg fun h => ht h.1, SetTable.of, List.getElem?_set_ne ht]
        rfl
  · next heq =>
    rw [not_not] at heq
    refine Prod.ext ?_ (decide_eq_false (not_not.mpr heq)).symm
    refine (h.fits.add_eq_of_length_eq haddable ?_).symm
    rw [hof, heq]

variable (hs : sets.Settled g)

include hs

theorem PartialFirst.add (h : PartialFirst g sets first) (hnt : nt ∈ g.nonTerminals) :
    PartialFirst g sets
      (first.add nt.index (firstOfAlternatives g sets.nullable first nt)) := by
  constructor
  case fits => exact h.fits.addAll (addable_firstOfAlternatives hg h.fits hnt)
  case refound =>
    intro s t ht
    have hfound : ∃ p ∈ g.productions, p.left = s ∧
        t ∈ firstOfSequence g sets.nullable first p.right := by
      rcases SetTable.mem_of_add.mp ht with ht | ⟨rfl, -, ht⟩
      · exact h.refound ht
      · exact (mem_firstOfAlternatives hg hnt).mp ht
    obtain ⟨p, hp, hleft, ht⟩ := hfound
    exact ⟨p, hp, hleft,
      mem_firstOfSequence_mono (fun s ht => SetTable.mem_of_add.mpr (Or.inl ht)) ht⟩
  case sound =>
    intro s t ht
    rcases SetTable.mem_of_add.mp ht with ht | ⟨rfl, -, ht⟩
    · exact h.sound ht
    · obtain ⟨p, hp, hleft, ht⟩ := (mem_firstOfAlternatives hg hnt).mp ht
      rw [← hleft]
      exact hs.mem_first_left hg hp (mem_firstOfSequence_mono (fun s ht => h.sound ht) ht)

/-- **Sweeping finds FIRST.** -/
theorem first_swept : sweepUntilQuiet (g.firstSweep sets.nullable) g.roundLimit
    (SetTable.empty g.symbols.length) = some sets.first := by
  have hvisits : ∀ nt ∈ g.nonTerminals, Truthful (PartialFirst g sets)
      (fun (table : SetTable) (pair : SymbolId × SymbolId) => pair.2 ∈ table.of pair.1) g.pairs
      (visitFirst g sets.nullable nt) := fun nt hnt =>
    truthful_of_addNoting hg (fun table h => h.visitFirst_eq hg hnt) (fun table h => h.fits)
      (fun table h => addable_firstOfAlternatives hg h.fits hnt) (fun table h => h.add hg hs hnt)
  have hstart : PartialFirst g sets (SetTable.empty g.symbols.length) := by
    refine ⟨SetTable.fits_empty, fun ht => ?_, fun ht => ?_⟩ <;>
    · rw [SetTable.of_empty] at ht
      exact absurd ht List.not_mem_nil
  obtain ⟨result, hresult, hpartial, hquiet⟩ :=
    (Truthful.sweepOver hvisits).exists_quiet hstart card_pairs_lt
  have hclosed := Truthful.visit_eq_of_quiet hvisits hpartial hquiet
  have hcomplete : ∀ s t, t ∈ sets.first.of s → t ∈ result.of s := by
    refine settle?_induction hs.first_settled
      (motive := fun table => ∀ s t, t ∈ table.of s → t ∈ result.of s) ?_ ?_
    · intro s t ht
      rw [SetTable.of_empty] at ht
      exact absurd ht List.not_mem_nil
    · intro table ih s t ht
      rcases SetTable.mem_of_addAll.mp ht with ht | ⟨-, set, hmem, ht⟩
      · exact ih s t ht
      · obtain ⟨p, hp, rfl, rfl⟩ := mem_moreFirst.mp hmem
        obtain ⟨nt, hnt, hindex, -⟩ := hg.exists_nonTerminal hp
        have hfix : result.addAll [(nt.index, firstOfAlternatives g sets.nullable result nt)] =
            result :=
          congrArg Prod.fst ((hpartial.visitFirst_eq hg hnt).symm.trans (hclosed nt hnt))
        rw [← hindex]
        refine SetTable.mem_of_addAll_eq hfix ?_ List.mem_cons_self
          ((mem_firstOfAlternatives hg hnt).mpr
            ⟨p, hp, hindex.symm, mem_firstOfSequence_mono (fun s => ih s t) ht⟩)
        rw [hpartial.fits.length_eq]
        exact lt_length_of_isNonTerminal (isNonTerminal_index hnt)
  have heq : result = sets.first := hpartial.fits.eq_of_mem_iff hs.first_fits fun s t =>
    ⟨hpartial.sound, hcomplete s t⟩
  exact heq ▸ hresult

end

/-! ## FOLLOW -/

/-- The occurrences are those of the right sides. -/
theorem WellFormed.mem_occurrences (hg : g.WellFormed) {o : Occurrence} : o ∈ g.occurrences ↔
    ∃ p ∈ g.productions, ∃ before, p.left = o.left ∧ p.right = before ++ o.symbol :: o.rest := by
  rw [occurrences, List.mem_flatMap]
  constructor
  · rintro ⟨nt, hnt, ho⟩
    obtain ⟨right, hright, ho⟩ := List.mem_flatMap.mp ho
    obtain ⟨⟨s, rest⟩, htrailer, rfl⟩ := List.mem_map.mp ho
    obtain ⟨before, heq⟩ := mem_trailers.mp htrailer
    obtain ⟨p, hp, hleft, rfl⟩ := (hg.mem_alternatives_iff hnt).mp hright
    exact ⟨p, hp, before, hleft, heq⟩
  · rintro ⟨p, hp, before, hleft, hright⟩
    obtain ⟨nt, hnt, hindex, halternative⟩ := hg.exists_nonTerminal hp
    refine ⟨nt, hnt, List.mem_flatMap.mpr ⟨p.right, halternative, List.mem_map.mpr
      ⟨(o.symbol, o.rest), mem_trailers.mpr ⟨before, hright⟩, ?_⟩⟩⟩
    rw [hindex, hleft]

/-- A table on the way to FOLLOW. -/
structure PartialFollow (g : Grammar) (sets : Sets) (follow : SetTable) : Prop where
  fits : follow.Fits g
  start : endMarkId ∈ follow.of g.start
  sound : ∀ {s t : SymbolId}, t ∈ follow.of s → t ∈ sets.follow.of s

section

variable (hg : g.WellFormed) (hs : sets.Settled g)

include hg hs

theorem visitFollow_eq {o : Occurrence} (h : g.isNonTerminal o.symbol) (follow : SetTable) :
    visitFollow g sets.nullable sets.first o follow =
      follow.addNoting o.symbol (firstOrFollow g sets.nullable sets.first follow o.left o.rest) := by
  rw [visitFollow, if_pos h, vanishes_eq hg hs.nullable_fits]
  rfl

omit hs in
/-- What a visit adds is what a round adds for the same place. -/
theorem mem_moreFollow_of_occurrence {o : Occurrence} (ho : o ∈ g.occurrences)
    (h : g.isNonTerminal o.symbol) :
    (o.symbol, firstOrFollow g nullable first follow o.left o.rest) ∈
      moreFollow g nullable first follow := by
  obtain ⟨p, hp, before, hleft, hright⟩ := hg.mem_occurrences.mp ho
  rw [← hleft]
  exact mem_moreFollow.mpr ⟨h, p, hp, before, o.rest, hright, rfl⟩

theorem PartialFollow.add (h : PartialFollow g sets follow) {o : Occurrence}
    (ho : o ∈ g.occurrences) (hsymbol : g.isNonTerminal o.symbol) : PartialFollow g sets
      (follow.add o.symbol (firstOrFollow g sets.nullable sets.first follow o.left o.rest)) := by
  constructor
  case fits => exact h.fits.addAll ((addable_moreFollow hs.first_fits h.fits).singleton
    (mem_moreFollow_of_occurrence hg ho hsymbol))
  case start => exact SetTable.mem_of_add.mpr (Or.inl h.start)
  case sound =>
    intro s t ht
    rcases SetTable.mem_of_add.mp ht with ht | ⟨rfl, -, ht⟩
    · exact h.sound ht
    · obtain ⟨p, hp, before, hleft, hright⟩ := hg.mem_occurrences.mp ho
      refine hs.mem_followOf_of_right hp hright hsymbol ?_
      rw [hleft]
      exact (mem_firstOrFollow.mp ht).imp_right (And.imp_right h.sound)

/-- **Sweeping finds FOLLOW.** -/
theorem follow_swept :
    sweepUntilQuiet (g.followSweep sets.nullable sets.first) g.roundLimit
      ((SetTable.empty g.symbols.length).add g.start [endMarkId]) = some sets.follow := by
  have hvisits : ∀ o ∈ g.occurrences, Truthful (PartialFollow g sets)
      (fun (table : SetTable) (pair : SymbolId × SymbolId) => pair.2 ∈ table.of pair.1) g.pairs
      (visitFollow g sets.nullable sets.first o) := by
    intro o ho
    by_cases hsymbol : g.isNonTerminal o.symbol
    · exact truthful_of_addNoting hg (fun table _ => visitFollow_eq hg hs hsymbol table)
        (fun table h => h.fits) (fun table h => (addable_moreFollow hs.first_fits h.fits).singleton
          (mem_moreFollow_of_occurrence hg ho hsymbol))
        (fun table h => h.add hg hs ho hsymbol)
    · have hidle : visitFollow g sets.nullable sets.first o = fun table => (table, false) :=
        funext fun table => if_neg hsymbol
      rw [hidle]
      exact truthful_idle
  have hstart : PartialFollow g sets
      ((SetTable.empty g.symbols.length).add g.start [endMarkId]) := by
    refine ⟨hg.fits_start, hg.mem_start_iff.mpr ⟨rfl, rfl⟩, fun ht => ?_⟩
    obtain ⟨rfl, rfl⟩ := hg.mem_start_iff.mp ht
    exact hs.endMark_mem_followOf_start hg
  obtain ⟨result, hresult, hpartial, hquiet⟩ :=
    (Truthful.sweepOver hvisits).exists_quiet hstart card_pairs_lt
  have hclosed := Truthful.visit_eq_of_quiet hvisits hpartial hquiet
  have hcomplete : ∀ s t, t ∈ sets.follow.of s → t ∈ result.of s := by
    refine settle?_induction hs.follow_settled
      (motive := fun table => ∀ s t, t ∈ table.of s → t ∈ result.of s) ?_ ?_
    · intro s t ht
      obtain ⟨rfl, rfl⟩ := hg.mem_start_iff.mp ht
      exact hpartial.start
    · intro table ih s t ht
      rcases SetTable.mem_of_addAll.mp ht with ht | ⟨-, set, hmem, ht⟩
      · exact ih s t ht
      · obtain ⟨hsymbol, p, hp, before, rest, hright, rfl⟩ := mem_moreFollow.mp hmem
        have ho : ⟨p.left, s, rest⟩ ∈ g.occurrences :=
          hg.mem_occurrences.mpr ⟨p, hp, before, rfl, hright⟩
        have hfix : result.addAll
            [(s, firstOrFollow g sets.nullable sets.first result p.left rest)] = result :=
          congrArg Prod.fst
            ((visitFollow_eq hg hs (o := ⟨p.left, s, rest⟩) hsymbol result).symm.trans
              (hclosed _ ho))
        refine SetTable.mem_of_addAll_eq hfix ?_ List.mem_cons_self (mem_firstOrFollow.mpr ?_)
        · rw [hpartial.fits.length_eq]
          exact lt_length_of_isNonTerminal hsymbol
        · exact (mem_firstOrFollow.mp ht).imp_right (And.imp_right (ih p.left t))
  have heq : result = sets.follow := hpartial.fits.eq_of_mem_iff hs.follow_fits fun s t =>
    ⟨hpartial.sound, hcomplete s t⟩
  exact heq ▸ hresult

end

/-! ## All three -/

theorem afterSweeps_eq_ok {α : Type} {sweep : α → α × Bool} {value result : α}
    (h : sweepUntilQuiet sweep g.roundLimit value = some result) :
    g.afterSweeps sweep value = .ok result := by
  rw [afterSweeps, h]

/-- **Sweeping in place finds the sets that the rounds find.** -/
theorem WellFormed.sweptSets_eq (hg : g.WellFormed) : g.sweptSets = g.sets := by
  obtain ⟨sets, hsets, hs⟩ := hg.exists_sets
  rw [hsets, sweptSets, afterSweeps_eq_ok (nullable_swept hg hs)]
  change (g.afterSweeps (g.firstSweep sets.nullable) _ >>= _) = _
  rw [afterSweeps_eq_ok (first_swept hg hs)]
  change (g.afterSweeps (g.followSweep sets.nullable sets.first) _ >>= _) = _
  rw [afterSweeps_eq_ok (follow_swept hg hs)]
  rfl

end Grammar

end GrammarTables
