import GrammarTables.Analysis.Sets
import GrammarTables.Proofs.Grammar.WellFormed
import Mathlib.Data.Finset.Prod

/-!
# Proofs/Analysis/Settled — the three sets settle within the round limit

A round that changes something adds a non-terminal to the nullable symbols, or a pair of a
non-terminal and a literal to a table (`SetTable.Fits`); there are at most as many of these as the
limit counts (`settle?_isSome_of_finite`).  So the sets of a well-formed grammar always exist
(`WellFormed.exists_sets`), and they are fixed points (`Sets.Settled`).
-/

namespace GrammarTables

/-! ## Rounds over a finite set -/

/-- **A round that can only add elements of a finite set settles** before it has been repeated more
often than the set has elements. -/
theorem settle?_isSome_of_finite {α β : Type} [DecidableEq α] {round : α → α} {motive : α → Prop}
    {limit : Nat} {value : α} (Holds : α → β → Prop) (elements : Finset β) (start : motive value)
    (keep : ∀ v, motive v → motive (round v))
    (grows : ∀ v, motive v → ∀ b, Holds v b → Holds (round v) b)
    (new : ∀ v, motive v → round v ≠ v → ∃ b ∈ elements, Holds (round v) b ∧ ¬ Holds v b)
    (hlimit : elements.card < limit) : (settle? round limit value).isSome := by
  classical
  let held (v : α) : Finset β := elements.filter (Holds v)
  have grows_card (v : α) (hv : motive v) (hne : round v ≠ v) :
      (held v).card < (held (round v)).card := by
    obtain ⟨b, hb, hround, hold⟩ := new v hv hne
    refine Finset.card_lt_card ((Finset.ssubset_iff_of_subset fun c hc => ?_).mpr ⟨b, ?_, ?_⟩)
    · obtain ⟨hc, hholds⟩ := Finset.mem_filter.mp hc
      exact Finset.mem_filter.mpr ⟨hc, grows v hv c hholds⟩
    · exact Finset.mem_filter.mpr ⟨hb, hround⟩
    · exact fun h => hold (Finset.mem_filter.mp h).2
  exact settle?_isSome start keep grows_card (fun v _ => Finset.card_filter_le elements _)
    (Nat.lt_add_right _ hlimit)

/-- The members a set gains, if an addition changes it. -/
theorem exists_new_of_insertAll_ne {as bs : List SymbolId} (hbs : Ascending.IsAscending bs)
    (h : Ascending.insertAll as bs ≠ bs) : ∃ s ∈ as, s ∉ bs := by
  by_contra hall
  refine h (Ascending.eq_of_mem_iff (Ascending.isAscending_insertAll hbs) hbs fun s => ?_)
  rw [Ascending.mem_insertAll]
  exact ⟨fun hs => hs.elim (fun hs => by_contra fun hb => hall ⟨s, hs, hb⟩) id, Or.inr⟩

/-! ## Tables -/

namespace SetTable

variable {table : SetTable} {more : List (SymbolId × List SymbolId)} {g : Grammar}

/-- Tables are equal when their sets are. -/
theorem eq_of_of_eq {table' : SetTable} (hlength : table.length = table'.length)
    (h : ∀ s, table.of s = table'.of s) : table = table' := by
  refine List.ext_getElem hlength fun s hs hs' => ?_
  have hof := h s
  rw [of, of, List.getElem?_eq_getElem hs, List.getElem?_eq_getElem hs'] at hof
  exact hof

/-- Sets stay in ascending order, without which equal members would not make equal sets. -/
theorem isAscending_of_add {s t : SymbolId} {set : List SymbolId}
    (htable : Ascending.IsAscending (table.of t)) (hset : Ascending.IsAscending set) :
    Ascending.IsAscending ((table.add s set).of t) := by
  rw [of_add]
  split
  · next h =>
    obtain ⟨rfl, -⟩ := h
    exact Ascending.isAscending_union hset htable
  · exact htable

/-- A whole round of additions keeps the order, set by set. -/
theorem isAscending_of_addAll {t : SymbolId} (htable : Ascending.IsAscending (table.of t))
    (hmore : ∀ entry ∈ more, Ascending.IsAscending entry.2) :
    Ascending.IsAscending ((table.addAll more).of t) := by
  induction more generalizing table with
  | nil => exact htable
  | cons entry more ih =>
    exact ih (isAscending_of_add htable (hmore entry List.mem_cons_self)) fun e he =>
      hmore e (List.mem_cons_of_mem _ he)

/-- A table of sets of literals, one for each symbol, where only non-terminals have members. -/
structure Fits (g : Grammar) (table : SetTable) : Prop where
  length_eq : table.length = g.symbols.length
  isAscending_of : ∀ s, Ascending.IsAscending (table.of s)
  isNonTerminal : ∀ {s t : SymbolId}, t ∈ table.of s → g.isNonTerminal s
  isLiteral : ∀ {s t : SymbolId}, t ∈ table.of s → g.isLiteral t

/-- FIRST starts from a table without members, which fits any grammar of that many symbols. -/
theorem fits_empty : Fits g (empty g.symbols.length) where
  length_eq := List.length_replicate
  isAscending_of s := by
    rw [of_empty]
    exact Ascending.isAscending_nil
  isNonTerminal h := by
    rw [of_empty] at h
    exact absurd h List.not_mem_nil
  isLiteral h := by
    rw [of_empty] at h
    exact absurd h List.not_mem_nil

/-- What may be added to a table. -/
structure Addable (g : Grammar) (more : List (SymbolId × List SymbolId)) : Prop where
  isAscending : ∀ entry ∈ more, Ascending.IsAscending entry.2
  isNonTerminal : ∀ entry ∈ more, g.isNonTerminal entry.1
  isLiteral : ∀ entry ∈ more, ∀ t ∈ entry.2, g.isLiteral t

/-- **A round keeps a table fitting**, whatever it adds, as long as this may be added. -/
theorem Fits.addAll (h : table.Fits g) (hmore : Addable g more) : (table.addAll more).Fits g where
  length_eq := length_addAll.trans h.length_eq
  isAscending_of s := isAscending_of_addAll (h.isAscending_of s) hmore.isAscending
  isNonTerminal ht := (mem_of_addAll.mp ht).elim h.isNonTerminal fun ⟨_, _, hmem, _⟩ =>
    hmore.isNonTerminal _ hmem
  isLiteral ht := (mem_of_addAll.mp ht).elim h.isLiteral fun ⟨_, _, hmem, ht⟩ =>
    hmore.isLiteral _ hmem _ ht

/-- A table that an addition changes gains a member somewhere. -/
theorem Fits.exists_new (h : table.Fits g) (hmore : Addable g more)
    (hne : table.addAll more ≠ table) : ∃ s t, t ∈ (table.addAll more).of s ∧ t ∉ table.of s := by
  by_contra hall
  refine hne (eq_of_of_eq length_addAll fun s => ?_)
  refine Ascending.eq_of_mem_iff ((h.addAll hmore).isAscending_of s) (h.isAscending_of s)
    fun t => ⟨fun ht => ?_, fun ht => mem_of_addAll.mpr (Or.inl ht)⟩
  by_contra hnew
  exact hall ⟨s, t, ht, hnew⟩

/-- A fixed addition is one that the table holds already. -/
theorem mem_of_addAll_eq {s t : SymbolId} {set : List SymbolId} (h : table.addAll more = table)
    (hs : s < table.length) (hmem : (s, set) ∈ more) (ht : t ∈ set) : t ∈ table.of s := by
  rw [← h]
  exact mem_of_addAll.mpr (Or.inr ⟨hs, set, hmem, ht⟩)

end SetTable

/-! ## What the rules add -/

section Rules

variable {g : Grammar} {nullable : List SymbolId} {first follow : SetTable} {s t : SymbolId}
  {sequence : List SymbolId}

/-- A sequence vanishes when all of its symbols do; the empty string is one of these. -/
theorem nullableSequence_iff :
    nullableSequence nullable sequence ↔ ∀ s ∈ sequence, s ∈ nullable := by
  rw [nullableSequence, List.all_eq_true]
  exact forall₂_congr fun s _ => List.contains_iff_mem

/-- What a sequence can begin with is put together from sets in ascending order. -/
theorem isAscending_firstOfSequence (h : ∀ s, Ascending.IsAscending (first.of s)) :
    Ascending.IsAscending (firstOfSequence g nullable first sequence) := by
  induction sequence with
  | nil => exact Ascending.isAscending_nil
  | cons s rest ih =>
    rw [firstOfSequence]
    split
    · exact List.pairwise_singleton _ _
    · split
      · exact Ascending.isAscending_union (h s) ih
      · exact h s

/-- A sequence begins with literals only, when the sets of its symbols have no other members. -/
theorem isLiteral_of_mem_firstOfSequence (h : ∀ {s t : SymbolId}, t ∈ first.of s → g.isLiteral t)
    (ht : t ∈ firstOfSequence g nullable first sequence) : g.isLiteral t := by
  induction sequence with
  | nil => exact absurd ht List.not_mem_nil
  | cons s rest ih =>
    rw [firstOfSequence] at ht
    split at ht
    · next hs => exact List.mem_singleton.mp ht ▸ hs
    · split at ht
      · exact (Ascending.mem_union.mp ht).elim h ih
      · exact h ht

/-- A sequence can begin with no less where its symbols can. -/
theorem mem_firstOfSequence_mono {first' : SetTable}
    (hfirst : ∀ s, t ∈ first.of s → t ∈ first'.of s)
    (ht : t ∈ firstOfSequence g nullable first sequence) :
    t ∈ firstOfSequence g nullable first' sequence := by
  induction sequence with
  | nil => exact ht
  | cons s rest ih =>
    rw [firstOfSequence] at ht ⊢
    split at ht
    · next hliteral => rwa [if_pos hliteral]
    · next hliteral =>
      rw [if_neg hliteral]
      split at ht
      · next hnullable =>
        rw [if_pos hnullable]
        exact Ascending.mem_union.mpr ((Ascending.mem_union.mp ht).imp (hfirst s) ih)
      · next hnullable =>
        rw [if_neg hnullable]
        exact hfirst s ht

/-- What can come next before a sequence is done is what it begins with, and what comes after it
when it vanishes.  Both the rule for FOLLOW and the lookaheads of a production are of this form. -/
theorem mem_firstOrFollow {left : SymbolId} :
    t ∈ firstOrFollow g nullable first follow left sequence ↔
      t ∈ firstOfSequence g nullable first sequence ∨
        nullableSequence nullable sequence ∧ t ∈ follow.of left := by
  rw [firstOrFollow]
  split
  · next h => simp [h]
  · next h => simp [h]

/-- So these are in ascending order as well. -/
theorem isAscending_firstOrFollow {left : SymbolId}
    (hfirst : ∀ s, Ascending.IsAscending (first.of s))
    (hfollow : ∀ s, Ascending.IsAscending (follow.of s)) :
    Ascending.IsAscending (firstOrFollow g nullable first follow left sequence) := by
  have hbegins : Ascending.IsAscending (firstOfSequence g nullable first sequence) :=
    isAscending_firstOfSequence hfirst
  rw [firstOrFollow]
  split
  · exact Ascending.isAscending_union hbegins (hfollow left)
  · exact hbegins

/-- A trailer is a symbol of the sequence with what stands after it. -/
theorem mem_trailers {rest : List SymbolId} :
    (s, rest) ∈ trailers sequence ↔ ∃ before, sequence = before ++ s :: rest := by
  induction sequence with
  | nil => simp [trailers]
  | cons r sequence ih =>
    rw [trailers, List.mem_cons, ih]
    constructor
    · rintro (h | ⟨before, rfl⟩)
      · obtain ⟨rfl, rfl⟩ := Prod.mk.inj h
        exact ⟨[], rfl⟩
      · exact ⟨r :: before, rfl⟩
    · rintro ⟨before, h⟩
      cases before with
      | nil =>
        obtain ⟨rfl, rfl⟩ := List.cons.inj h
        exact Or.inl rfl
      | cons b before => exact Or.inr ⟨before, (List.cons.inj h).2⟩

/-- A round finds the left sides of which some right side vanishes by now. -/
theorem mem_moreNullable : s ∈ moreNullable g nullable ↔
    ∃ p ∈ g.productions, p.left = s ∧ nullableSequence nullable p.right := by
  rw [moreNullable, List.mem_map]
  constructor
  · rintro ⟨p, hp, rfl⟩
    obtain ⟨hp, hright⟩ := List.mem_filter.mp hp
    exact ⟨p, hp, rfl, hright⟩
  · rintro ⟨p, hp, rfl, hright⟩
    exact ⟨p, List.mem_filter.mpr ⟨hp, hright⟩, rfl⟩

/-- A round for FIRST adds to each left side what its right sides begin with. -/
theorem mem_moreFirst {set : List SymbolId} : (s, set) ∈ moreFirst g nullable first ↔
    ∃ p ∈ g.productions, p.left = s ∧ set = firstOfSequence g nullable first p.right := by
  rw [moreFirst, List.mem_map]
  refine exists_congr fun p => and_congr_right fun _ => ?_
  rw [Prod.mk.injEq, eq_comm (a := set)]

/-- A round for FOLLOW goes through the places where a non-terminal stands in a right side, and adds
what can come next there. -/
theorem mem_moreFollow {set : List SymbolId} : (s, set) ∈ moreFollow g nullable first follow ↔
    g.isNonTerminal s ∧ ∃ p ∈ g.productions, ∃ before rest, p.right = before ++ s :: rest ∧
      set = firstOrFollow g nullable first follow p.left rest := by
  rw [moreFollow, List.mem_flatMap]
  constructor
  · rintro ⟨p, hp, h⟩
    obtain ⟨⟨r, rest⟩, hmem, heq⟩ := List.mem_map.mp h
    obtain ⟨hmem, hr⟩ := List.mem_filter.mp hmem
    obtain ⟨rfl, rfl⟩ := Prod.mk.inj heq
    obtain ⟨before, hright⟩ := mem_trailers.mp hmem
    exact ⟨hr, p, hp, before, rest, hright, rfl⟩
  · rintro ⟨hs, p, hp, before, rest, hright, rfl⟩
    exact ⟨p, hp, List.mem_map.mpr ⟨(s, rest),
      List.mem_filter.mpr ⟨mem_trailers.mpr ⟨before, hright⟩, hs⟩, rfl⟩⟩

end Rules

/-! ## The rounds -/

namespace Grammar

variable {g : Grammar} {nullable : List SymbolId} {first follow : SetTable} {s t : SymbolId}

/-- A set of symbols that may be nullable. -/
structure NullableFits (g : Grammar) (nullable : List SymbolId) : Prop where
  isAscending : Ascending.IsAscending nullable
  isNonTerminal : ∀ {s : SymbolId}, s ∈ nullable → s = epsilonId ∨ g.isNonTerminal s

/-- The non-terminals, as left sides of productions. -/
def lefts (g : Grammar) : Finset SymbolId :=
  (g.productions.map Production.left).toFinset

/-- There are at most as many non-terminals as productions, since each has one. -/
theorem card_lefts_le : g.lefts.card ≤ g.productions.length :=
  (List.toFinset_card_le _).trans_eq (List.length_map _)

/-- The pairs of a non-terminal and a symbol. -/
def pairs (g : Grammar) : Finset (SymbolId × SymbolId) :=
  g.lefts ×ˢ Finset.range g.symbols.length

/-- **The limit is above the number of pairs** of a non-terminal and a symbol, so a table cannot
grow in every round. -/
theorem card_pairs_lt : g.pairs.card < g.roundLimit := by
  rw [pairs, Finset.card_product, Finset.card_range]
  exact Nat.lt_succ_of_le (Nat.mul_le_mul_right _ card_lefts_le)

section

variable (hg : g.WellFormed)

include hg

/-- Every non-terminal has a production, so it is counted among the left sides. -/
theorem WellFormed.mem_lefts (hs : g.isNonTerminal s) : s ∈ g.lefts := by
  obtain ⟨p, hp, rfl⟩ := hg.exists_production hs
  exact List.mem_toFinset.mpr (List.mem_map_of_mem hp)

theorem WellFormed.mem_pairs (hs : g.isNonTerminal s) (ht : g.isLiteral t) : (s, t) ∈ g.pairs :=
  Finset.mem_product.mpr ⟨hg.mem_lefts hs, Finset.mem_range.mpr (lt_length_of_isLiteral ht)⟩

theorem WellFormed.length_pos : 0 < g.symbols.length :=
  Nat.zero_lt_of_lt (List.getElem?_eq_some_iff.mp hg.symbol_epsilon).1

/-- The nullable symbols are bounded by the same limit, as there is at least one symbol. -/
theorem WellFormed.card_lefts_lt : g.lefts.card < g.roundLimit :=
  Nat.lt_succ_of_le (card_lefts_le.trans (Nat.le_mul_of_pos_right _ hg.length_pos))

/-- A literal stands for itself, so it never vanishes. -/
theorem NullableFits.not_isLiteral (h : NullableFits g nullable) (hs : s ∈ nullable) :
    ¬ g.isLiteral s := by
  intro hliteral
  rcases h.isNonTerminal hs with rfl | hs
  · exact hg.not_isLiteral_epsilon hliteral
  · rw [isNonTerminal_eq_false_of_isLiteral hliteral] at hs
    exact nomatch hs

/-- A round adds non-terminals only, in their place. -/
theorem NullableFits.round (h : NullableFits g nullable) :
    NullableFits g (g.nullableRound nullable) where
  isAscending := Ascending.isAscending_insertAll h.isAscending
  isNonTerminal hs := by
    rcases Ascending.mem_insertAll.mp hs with hs | hs
    · obtain ⟨p, hp, rfl, -⟩ := mem_moreNullable.mp hs
      exact Or.inr (hg.isNonTerminal_left hp)
    · exact h.isNonTerminal hs

/-- **The nullable symbols settle.** -/
theorem WellFormed.nullable_settles :
    (settle? g.nullableRound g.roundLimit [epsilonId]).isSome := by
  refine settle?_isSome_of_finite (fun nullable s => s ∈ nullable) g.lefts
    (⟨List.pairwise_singleton _ _, fun hs => Or.inl (List.mem_singleton.mp hs)⟩ :
      NullableFits g [epsilonId]) (fun v hv => hv.round hg)
    (fun v _ s hs => Ascending.mem_insertAll.mpr (Or.inr hs)) (fun v hv hne => ?_)
    hg.card_lefts_lt
  obtain ⟨s, hs, hnew⟩ := exists_new_of_insertAll_ne hv.isAscending hne
  obtain ⟨p, hp, rfl, -⟩ := mem_moreNullable.mp hs
  exact ⟨p.left, hg.mem_lefts (hg.isNonTerminal_left hp),
    Ascending.mem_insertAll.mpr (Or.inl hs), hnew⟩

/-- A table settles when every round adds to it what may be added. -/
theorem WellFormed.table_settles {more : SetTable → List (SymbolId × List SymbolId)}
    {table : SetTable} (htable : table.Fits g)
    (hmore : ∀ table : SetTable, table.Fits g → SetTable.Addable g (more table)) :
    (settle? (fun table => SetTable.addAll table (more table)) g.roundLimit table).isSome := by
  refine settle?_isSome_of_finite (fun (table : SetTable) (pair : SymbolId × SymbolId) =>
      pair.2 ∈ table.of pair.1) g.pairs htable (fun v hv => hv.addAll (hmore v hv))
    (fun v _ _ h => SetTable.mem_of_addAll.mpr (Or.inl h)) (fun v hv hne => ?_) card_pairs_lt
  obtain ⟨s, t, ht, hnew⟩ := hv.exists_new (hmore v hv) hne
  have hround := hv.addAll (hmore v hv)
  exact ⟨(s, t), hg.mem_pairs (hround.isNonTerminal ht) (hround.isLiteral ht), ht, hnew⟩

/-- What the rule for FIRST adds may be added: sets of literals, to non-terminals. -/
theorem WellFormed.addable_moreFirst (hfirst : first.Fits g) :
    SetTable.Addable g (moreFirst g nullable first) where
  isAscending := fun ⟨s, set⟩ hmem => by
    obtain ⟨p, -, -, rfl⟩ := mem_moreFirst.mp hmem
    exact isAscending_firstOfSequence hfirst.isAscending_of
  isNonTerminal := fun ⟨s, set⟩ hmem => by
    obtain ⟨p, hp, rfl, -⟩ := mem_moreFirst.mp hmem
    exact hg.isNonTerminal_left hp
  isLiteral := fun ⟨s, set⟩ hmem t ht => by
    obtain ⟨p, -, -, rfl⟩ := mem_moreFirst.mp hmem
    exact isLiteral_of_mem_firstOfSequence hfirst.isLiteral ht

omit hg in
/-- So may what the rule for FOLLOW adds, which looks into both tables. -/
theorem addable_moreFollow (hfirst : first.Fits g) (hfollow : follow.Fits g) :
    SetTable.Addable g (moreFollow g nullable first follow) where
  isAscending := fun ⟨s, set⟩ hmem => by
    obtain ⟨-, p, -, before, rest, -, rfl⟩ := mem_moreFollow.mp hmem
    exact isAscending_firstOrFollow hfirst.isAscending_of hfollow.isAscending_of
  isNonTerminal := fun ⟨s, set⟩ hmem => (mem_moreFollow.mp hmem).1
  isLiteral := fun ⟨s, set⟩ hmem t ht => by
    obtain ⟨-, p, -, before, rest, -, rfl⟩ := mem_moreFollow.mp hmem
    rcases mem_firstOrFollow.mp ht with ht | ⟨-, ht⟩
    · exact isLiteral_of_mem_firstOfSequence hfirst.isLiteral ht
    · exact hfollow.isLiteral ht

/-- The table in which only the end mark comes after the start symbol. -/
theorem WellFormed.fits_start :
    ((SetTable.empty g.symbols.length).add g.start [endMarkId]).Fits g := by
  have h : SetTable.Addable g [(g.start, [endMarkId])] := by
    constructor
    case isAscending => exact fun entry h => List.mem_singleton.mp h ▸ List.pairwise_singleton _ _
    case isNonTerminal => exact fun entry h => List.mem_singleton.mp h ▸ hg.start_nonTerminal
    case isLiteral =>
      intro entry h t ht
      rw [List.mem_singleton.mp h] at ht
      exact List.mem_singleton.mp ht ▸ hg.isLiteral_endMark
  exact SetTable.fits_empty.addAll h

/-- The end mark after the start symbol is the one member that FOLLOW starts with. -/
theorem WellFormed.mem_start_iff :
    t ∈ ((SetTable.empty g.symbols.length).add g.start [endMarkId]).of s ↔
      s = g.start ∧ t = endMarkId := by
  have hlt : g.start < (SetTable.empty g.symbols.length).length :=
    List.length_replicate.symm ▸ lt_length_of_isNonTerminal hg.start_nonTerminal
  rw [SetTable.mem_of_add, SetTable.of_empty, List.mem_singleton, eq_comm]
  simp [hlt]

end

end Grammar

/-! ## The sets -/

/-- Rounds that settle within the limit do not fail. -/
theorem Grammar.settle_eq_ok {α : Type} [DecidableEq α] {g : Grammar} {round : α → α}
    {value result : α} (h : settle? round g.roundLimit value = some result) :
    g.settle round value = .ok result := by
  rw [settle, h]

/-- The sets of a grammar fit it and are fixed points of their rounds. -/
structure Sets.Settled (g : Grammar) (sets : Sets) : Prop where
  nullable_fits : g.NullableFits sets.nullable
  first_fits : sets.first.Fits g
  follow_fits : sets.follow.Fits g
  nullable_settled : settle? g.nullableRound g.roundLimit [epsilonId] = some sets.nullable
  first_settled : settle? (g.firstRound sets.nullable) g.roundLimit
    (SetTable.empty g.symbols.length) = some sets.first
  follow_settled : settle? (g.followRound sets.nullable sets.first) g.roundLimit
    ((SetTable.empty g.symbols.length).add g.start [endMarkId]) = some sets.follow

namespace Sets.Settled

variable {g : Grammar} {sets : Sets} (hs : sets.Settled g)

include hs

theorem isAscending_firstOf (w : List SymbolId) : Ascending.IsAscending (sets.firstOf g w) :=
  isAscending_firstOfSequence hs.first_fits.isAscending_of

theorem isAscending_followOf (s : SymbolId) : Ascending.IsAscending (sets.followOf s) :=
  hs.follow_fits.isAscending_of s

/-- The lookaheads of a production are in ascending order, so they are printed in the order of the
symbols. -/
theorem isAscending_predict (s : SymbolId) (w : List SymbolId) :
    Ascending.IsAscending (sets.predict g s w) :=
  isAscending_firstOrFollow hs.first_fits.isAscending_of hs.follow_fits.isAscending_of

end Sets.Settled

namespace Grammar.WellFormed

variable {g : Grammar} (hg : g.WellFormed)

include hg

/-- **The sets of a well-formed grammar settle within the round limit.** -/
theorem exists_sets : ∃ sets, g.sets = .ok sets ∧ sets.Settled g := by
  obtain ⟨nullable, hnullable⟩ := Option.isSome_iff_exists.mp hg.nullable_settles
  obtain ⟨first, hfirst⟩ : ∃ first, settle? (g.firstRound nullable) g.roundLimit
      (SetTable.empty g.symbols.length) = some first :=
    Option.isSome_iff_exists.mp
      (hg.table_settles SetTable.fits_empty fun _ h => hg.addable_moreFirst h)
  have first_fits : first.Fits g := settle?_induction hfirst SetTable.fits_empty fun table h =>
    h.addAll (hg.addable_moreFirst h)
  obtain ⟨follow, hfollow⟩ : ∃ follow, settle? (g.followRound nullable first) g.roundLimit
      ((SetTable.empty g.symbols.length).add g.start [endMarkId]) = some follow :=
    Option.isSome_iff_exists.mp
      (hg.table_settles hg.fits_start fun _ h => addable_moreFollow first_fits h)
  refine ⟨⟨nullable, first, follow⟩, ?_, ?_⟩
  · rw [sets, settle_eq_ok hnullable]
    change (g.settle (g.firstRound nullable) _ >>= _) = _
    rw [settle_eq_ok hfirst]
    change (g.settle (g.followRound nullable first) _ >>= _) = _
    rw [settle_eq_ok hfollow]
    rfl
  · constructor
    case nullable_fits =>
      exact settle?_induction hnullable
        ⟨List.pairwise_singleton _ _, fun hs => Or.inl (List.mem_singleton.mp hs)⟩
        fun v hv => hv.round hg
    case first_fits => exact first_fits
    case follow_fits =>
      exact settle?_induction hfollow hg.fits_start fun table h =>
        h.addAll (addable_moreFollow first_fits h)
    case nullable_settled => exact hnullable
    case first_settled => exact hfirst
    case follow_settled => exact hfollow

end Grammar.WellFormed

end GrammarTables
