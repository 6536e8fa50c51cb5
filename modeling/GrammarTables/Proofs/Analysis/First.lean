import GrammarTables.Proofs.Analysis.Settled
import GrammarTables.Proofs.Grammar.Derives

/-!
# Proofs/Analysis/First — nullable and FIRST say what is derivable

A sequence is nullable exactly when it derives the empty one (`nullableAll_iff_derives`), and a
literal is in FIRST of a sequence exactly when the sequence derives something that begins with it
(`mem_firstOf_iff_derives`).

*Soundness* is an induction on rounds: what a round adds has a derivation.  *Completeness* is an
induction on derivations: as a fixed point the sets are closed under the productions, so a rewriting
step read backwards keeps what they say of a sentential form.

That a symbol is not nullable can also be seen from the productions alone, when none of them leads
out of a set of non-terminals around it (`Grammar.Ungrounded`).
-/

namespace GrammarTables.Sets.Settled

open Grammar

variable {g : Grammar} {sets : Sets} {p : Production} {s t : SymbolId} {u v w : List SymbolId}

/-! ## Sequences -/

theorem nullableAll_iff : sets.nullableAll w ↔ ∀ s ∈ w, s ∈ sets.nullable :=
  nullableSequence_iff

theorem nullableAll_append :
    sets.nullableAll (v ++ w) ↔ sets.nullableAll v ∧ sets.nullableAll w := by
  rw [nullableAll_iff, nullableAll_iff, nullableAll_iff, List.forall_mem_append]

theorem nullableAll_cons :
    sets.nullableAll (s :: w) ↔ s ∈ sets.nullable ∧ sets.nullableAll w := by
  rw [nullableAll_iff, nullableAll_iff, List.forall_mem_cons]

theorem firstOf_cons_of_isLiteral (h : g.isLiteral s) : sets.firstOf g (s :: w) = [s] := by
  rw [firstOf, firstOfSequence, if_pos h]

/-- What a sequence begins with that does not begin with a literal. -/
theorem mem_firstOf_cons (h : ¬ g.isLiteral s) : t ∈ sets.firstOf g (s :: w) ↔
    t ∈ sets.first.of s ∨ s ∈ sets.nullable ∧ t ∈ sets.firstOf g w := by
  rw [firstOf, firstOfSequence, if_neg h]
  split
  · next hn => simp [List.contains_iff_mem.mp hn, firstOf]
  · next hn =>
    rw [List.contains_iff_mem] at hn
    simp [hn]

section

variable (hs : sets.Settled g)

include hs

/-! ## Nullable symbols -/

theorem epsilon_mem_nullable : epsilonId ∈ sets.nullable :=
  settle?_induction hs.nullable_settled (motive := fun nullable => epsilonId ∈ nullable)
    List.mem_cons_self fun _ h => Ascending.mem_insertAll.mpr (Or.inr h)

/-- A non-terminal with a nullable alternative is nullable. -/
theorem left_mem_nullable (hp : p ∈ g.productions) (h : sets.nullableAll p.right) :
    p.left ∈ sets.nullable := by
  have hfix : g.nullableRound sets.nullable = sets.nullable :=
    (settle?_eq_some hs.nullable_settled).1
  rw [← hfix]
  exact Ascending.mem_insertAll.mpr (Or.inl (mem_moreNullable.mpr ⟨p, hp, rfl, h⟩))

theorem nullableAll_visible : sets.nullableAll (visible w) ↔ sets.nullableAll w := by
  rw [nullableAll_iff, nullableAll_iff]
  constructor
  · intro h s hsw
    by_cases hepsilon : s = epsilonId
    · exact hepsilon ▸ hs.epsilon_mem_nullable
    · exact h s (List.mem_filter.mpr ⟨hsw, decide_eq_true hepsilon⟩)
  · exact fun h s hsw => h s (List.mem_filter.mp hsw).1

/-- What derives a nullable sequence is nullable. -/
theorem nullableAll_of_derives (h : g.Derives v w) (hw : sets.nullableAll w) :
    sets.nullableAll v := by
  induction h using Relation.ReflTransGen.head_induction_on with
  | refl => exact hw
  | head hstep _ ih =>
    obtain ⟨u, v, p, hp⟩ := hstep
    obtain ⟨huright, hv⟩ := nullableAll_append.mp ih
    obtain ⟨hu, hright⟩ := nullableAll_append.mp huright
    have hleft := hs.left_mem_nullable hp (hs.nullableAll_visible.mp hright)
    exact nullableAll_append.mpr ⟨hu, nullableAll_cons.mpr ⟨hleft, hv⟩⟩

variable (hg : g.WellFormed)

include hg

/-- A nullable symbol derives the empty sequence: each round has a derivation for what it adds. -/
theorem derives_nil_of_mem_nullable (h : s ∈ sets.nullable) : g.Derives (visible [s]) [] := by
  have key : ∀ s ∈ sets.nullable, g.Derives (visible [s]) [] := by
    refine settle?_induction hs.nullable_settled
      (motive := fun nullable => ∀ s ∈ nullable, g.Derives (visible [s]) []) ?_ ?_
    · intro s hs
      rw [List.mem_singleton.mp hs]
      exact .refl []
    · intro nullable ih s hs
      rcases Ascending.mem_insertAll.mp hs with hs | hs
      · obtain ⟨p, hp, rfl, hright⟩ := mem_moreNullable.mp hs
        rw [visible_cons_of_ne (hg.left_ne_epsilon hp)]
        refine (derives_of_mem hp).trans (derives_nil_of_forall fun s hs => ?_)
        obtain ⟨hmem, hne⟩ := List.mem_filter.mp hs
        have hderives := ih s (nullableSequence_iff.mp hright s hmem)
        rwa [visible_cons_of_ne (of_decide_eq_true hne)] at hderives
      · exact ih s hs
  exact key s h

theorem derives_nil_of_nullableAll (h : sets.nullableAll w) : g.Derives (visible w) [] := by
  refine derives_nil_of_forall fun s hsw => ?_
  obtain ⟨hmem, hne⟩ := List.mem_filter.mp hsw
  have hderives := hs.derives_nil_of_mem_nullable hg (nullableAll_iff.mp h s hmem)
  rwa [visible_cons_of_ne (of_decide_eq_true hne)] at hderives

/-- **A sequence is nullable exactly when it derives the empty one.** -/
theorem nullableAll_iff_derives : sets.nullableAll w ↔ g.Derives (visible w) [] :=
  ⟨hs.derives_nil_of_nullableAll hg, fun h =>
    hs.nullableAll_visible.mp (hs.nullableAll_of_derives h (nullableAll_iff.mpr
      fun _ hs => absurd hs List.not_mem_nil))⟩

theorem not_isLiteral_of_mem_nullable (h : s ∈ sets.nullable) : ¬ g.isLiteral s :=
  hs.nullable_fits.not_isLiteral hg h

/-! ## FIRST -/

theorem mem_firstOf_append : t ∈ sets.firstOf g (v ++ w) ↔
    t ∈ sets.firstOf g v ∨ sets.nullableAll v ∧ t ∈ sets.firstOf g w := by
  induction v with
  | nil =>
    have hnil : sets.nullableAll [] := rfl
    simp [firstOf, firstOfSequence, hnil]
  | cons s v ih =>
    by_cases hliteral : g.isLiteral s
    · have hnot : ¬ sets.nullableAll (s :: v) := fun h =>
        hs.not_isLiteral_of_mem_nullable hg (nullableAll_cons.mp h).1 hliteral
      rw [List.cons_append, firstOf_cons_of_isLiteral hliteral, firstOf_cons_of_isLiteral hliteral]
      simp [hnot]
    · rw [List.cons_append, mem_firstOf_cons hliteral, mem_firstOf_cons hliteral, ih,
        nullableAll_cons, and_or_left, and_assoc, or_assoc]

theorem mem_firstOf_visible : t ∈ sets.firstOf g (visible w) ↔ t ∈ sets.firstOf g w := by
  induction w with
  | nil => rfl
  | cons s w ih =>
    by_cases hepsilon : s = epsilonId
    · subst hepsilon
      have hnone : t ∉ sets.first.of epsilonId := fun ht =>
        hg.ne_epsilon_of_isNonTerminal (hs.first_fits.isNonTerminal ht) rfl
      rw [visible_epsilon_cons, ih, mem_firstOf_cons hg.not_isLiteral_epsilon]
      simp [hnone, hs.epsilon_mem_nullable]
    · rw [visible_cons_of_ne hepsilon]
      by_cases hliteral : g.isLiteral s
      · rw [firstOf_cons_of_isLiteral hliteral, firstOf_cons_of_isLiteral hliteral]
      · rw [mem_firstOf_cons hliteral, mem_firstOf_cons hliteral, ih]

/-- FIRST of a non-terminal holds FIRST of its alternatives. -/
theorem mem_first_left (hp : p ∈ g.productions) (ht : t ∈ sets.firstOf g p.right) :
    t ∈ sets.first.of p.left := by
  have hfix : g.firstRound sets.nullable sets.first = sets.first :=
    (settle?_eq_some hs.first_settled).1
  refine SetTable.mem_of_addAll_eq hfix ?_ (mem_moreFirst.mpr ⟨p, hp, rfl, rfl⟩) ht
  rw [hs.first_fits.length_eq]
  exact lt_length_of_isNonTerminal (hg.isNonTerminal_left hp)

/-- What a form derives begins with no other literals than the form. -/
theorem mem_firstOf_of_derives (h : g.Derives v w) (ht : t ∈ sets.firstOf g w) :
    t ∈ sets.firstOf g v := by
  induction h using Relation.ReflTransGen.head_induction_on with
  | refl => exact ht
  | head hstep _ ih =>
    obtain ⟨u, v, p, hp⟩ := hstep
    have hleft := hg.isNonTerminal_left hp
    have hliteral : ¬ g.isLiteral p.left := fun h => by
      rw [isNonTerminal_eq_false_of_isLiteral h] at hleft
      exact nomatch hleft
    rw [List.append_assoc, hs.mem_firstOf_append hg, hs.mem_firstOf_append hg,
      hs.mem_firstOf_visible hg, hs.nullableAll_visible] at ih
    rw [hs.mem_firstOf_append hg, mem_firstOf_cons hliteral]
    refine ih.imp_right (And.imp_right (Or.imp (hs.mem_first_left hg hp) ?_))
    exact And.imp_left (hs.left_mem_nullable hp)

/-- A sequence derives what it begins with, if the table's sets are sound. -/
theorem exists_derives_of_mem_firstOfSequence {first : SetTable}
    (hfirst : ∀ s t, t ∈ first.of s → ∃ rest, g.Derives (visible [s]) (t :: rest))
    (ht : t ∈ firstOfSequence g sets.nullable first w) :
    ∃ rest, g.Derives (visible w) (t :: rest) := by
  induction w with
  | nil => exact absurd ht List.not_mem_nil
  | cons s w ih =>
    rw [visible_cons]
    have hhead (ht : t ∈ first.of s) :
        ∃ rest, g.Derives (visible [s] ++ visible w) (t :: rest) := by
      obtain ⟨rest, hrest⟩ := hfirst s t ht
      exact ⟨rest ++ visible w, hrest.append (.refl _)⟩
    rw [firstOfSequence] at ht
    split at ht
    · next hliteral =>
      rw [List.mem_singleton.mp ht, visible_cons_of_ne (hg.ne_epsilon_of_isLiteral hliteral)]
      exact ⟨visible w, .refl _⟩
    · split at ht
      · next hnullable =>
        rcases Ascending.mem_union.mp ht with ht | ht
        · exact hhead ht
        · obtain ⟨rest, hrest⟩ := ih ht
          have hnil := hs.derives_nil_of_mem_nullable hg (List.contains_iff_mem.mp hnullable)
          exact ⟨rest, hnil.append hrest⟩
      · exact hhead ht

theorem exists_derives_of_mem_firstOf (ht : t ∈ sets.firstOf g w) :
    ∃ rest, g.Derives (visible w) (t :: rest) := by
  refine hs.exists_derives_of_mem_firstOfSequence hg ?_ ht
  refine settle?_induction hs.first_settled (motive := fun table =>
    ∀ s t, t ∈ table.of s → ∃ rest, g.Derives (visible [s]) (t :: rest)) ?_ ?_
  · intro s t ht
    rw [SetTable.of_empty] at ht
    exact absurd ht List.not_mem_nil
  · intro table ih s t ht
    rcases SetTable.mem_of_addAll.mp ht with ht | ⟨-, set, hmem, ht⟩
    · exact ih s t ht
    · obtain ⟨p, hp, rfl, rfl⟩ := mem_moreFirst.mp hmem
      obtain ⟨rest, hrest⟩ := hs.exists_derives_of_mem_firstOfSequence hg ih ht
      rw [visible_cons_of_ne (hg.left_ne_epsilon hp)]
      exact ⟨rest, (derives_of_mem hp).trans hrest⟩

/-- **A literal is in FIRST of a sequence exactly when the sequence derives something that begins
with it.** -/
theorem mem_firstOf_iff_derives : t ∈ sets.firstOf g w ↔
    g.isLiteral t ∧ ∃ rest, g.Derives (visible w) (t :: rest) := by
  constructor
  · exact fun ht => ⟨isLiteral_of_mem_firstOfSequence hs.first_fits.isLiteral ht,
      hs.exists_derives_of_mem_firstOf hg ht⟩
  · rintro ⟨hliteral, rest, h⟩
    refine (hs.mem_firstOf_visible hg).mp (hs.mem_firstOf_of_derives hg h ?_)
    rw [firstOf_cons_of_isLiteral hliteral]
    exact List.mem_cons_self

end

end GrammarTables.Sets.Settled

namespace GrammarTables.Grammar

variable {g : Grammar} {s t : SymbolId} {v w cycle : List SymbolId}

/-! ## Cycles without a way out -/

/-- Non-terminals without a grounded alternative: each of their alternatives holds a literal or
leads back to one of them. -/
structure Ungrounded (g : Grammar) (cycle : List SymbolId) : Prop where
  isNonTerminal : ∀ s ∈ cycle, g.isNonTerminal s
  leads_back : ∀ p ∈ g.productions, p.left ∈ cycle → ∃ s ∈ p.right, s ∈ cycle ∨ g.isLiteral s

/-- **A form with a literal or a member of such a cycle never loses all of them.** -/
theorem Ungrounded.of_derives (hcycle : g.Ungrounded cycle) (hg : g.WellFormed)
    (h : g.Derives v w) (hv : ∃ s ∈ v, s ∈ cycle ∨ g.isLiteral s) :
    ∃ s ∈ w, s ∈ cycle ∨ g.isLiteral s := by
  induction h with
  | refl => exact hv
  | tail _ hstep ih =>
    obtain ⟨before, after, p, hp⟩ := hstep
    obtain ⟨s, hs, hstays⟩ := ih
    rcases List.mem_append.mp hs with hs | hs
    · exact ⟨s, by simp [hs], hstays⟩
    rcases List.mem_cons.mp hs with rfl | hs
    · have hmem := hstays.resolve_right fun h => hg.left_ne_of_isLiteral hp h rfl
      obtain ⟨r, hr, hstays⟩ := hcycle.leads_back p hp hmem
      have hne : r ≠ epsilonId := hstays.elim
        (fun h => hg.ne_epsilon_of_isNonTerminal (hcycle.isNonTerminal r h))
        hg.ne_epsilon_of_isLiteral
      have hvisible : r ∈ visible p.right := List.mem_filter.mpr ⟨hr, decide_eq_true hne⟩
      exact ⟨r, by simp [hvisible], hstays⟩
    · exact ⟨s, by simp [hs], hstays⟩

/-! ## The questions by number -/

theorem checkAll_eq_ok (h : g.hasAll w) : g.checkAll w = .ok () := by
  have hnone : (w.find? fun s => g.symbols.length ≤ s) = none := by
    refine List.find?_eq_none.mpr fun s hs => ?_
    have hlt : s < g.symbols.length := by simpa using List.all_eq_true.mp h s hs
    simpa using hlt
  rw [checkAll, hnone]

theorem hasAll_singleton : g.hasAll [s] ↔ s < g.symbols.length := by
  simp [hasAll]

/-- The answer for a symbol is the one for the symbol alone in a sequence. -/
theorem derivesEmpty_eq : g.derivesEmpty s = g.sequenceDerivesEmpty [s] := by
  have hsingle (sets : Sets) : sets.nullableAll [s] = sets.nullable.contains s := by
    rw [Sets.nullableAll, nullableSequence, List.all_cons, List.all_nil, Bool.and_true]
  simp only [derivesEmpty, sequenceDerivesEmpty, hsingle]

namespace WellFormed

variable (hg : g.WellFormed)

include hg

/-- A sequence of symbols has a FIRST set. -/
theorem firstOf_eq_ok (h : g.hasAll w) :
    ∃ sets : Sets, sets.Settled g ∧ g.firstOf w = .ok (sets.firstOf g w) := by
  obtain ⟨sets, hsets, hs⟩ := hg.exists_sets
  refine ⟨sets, hs, ?_⟩
  rw [firstOf, checkAll_eq_ok h, hsets]
  rfl

/-- **For a sequence of symbols it is known whether it derives the empty one.** -/
theorem sequenceDerivesEmpty_eq_ok (h : g.hasAll w) :
    ∃ b, g.sequenceDerivesEmpty w = .ok b ∧ (b = true ↔ g.Derives (visible w) []) := by
  obtain ⟨sets, hsets, hs⟩ := hg.exists_sets
  refine ⟨sets.nullableAll w, ?_, hs.nullableAll_iff_derives hg⟩
  rw [sequenceDerivesEmpty, checkAll_eq_ok h, hsets]
  rfl

/-- Literals and the members of a cycle without a way out do not derive the empty sequence. -/
theorem derivesEmpty_eq_false (hcycle : g.Ungrounded cycle) (hs : s ∈ cycle ∨ g.isLiteral s) :
    g.derivesEmpty s = .ok false := by
  have hlt : s < g.symbols.length := hs.elim
    (fun h => lt_length_of_isNonTerminal (hcycle.isNonTerminal s h)) lt_length_of_isLiteral
  have hne : s ≠ epsilonId := hs.elim
    (fun h => hg.ne_epsilon_of_isNonTerminal (hcycle.isNonTerminal s h)) hg.ne_epsilon_of_isLiteral
  obtain ⟨b, hb, hiff⟩ := hg.sequenceDerivesEmpty_eq_ok (hasAll_singleton.mpr hlt)
  rw [derivesEmpty_eq, hb]
  cases b with
  | false => rfl
  | true =>
    have hderives := hiff.mp rfl
    rw [visible_cons_of_ne hne] at hderives
    obtain ⟨r, hr, -⟩ := hcycle.of_derives hg hderives ⟨s, List.mem_cons_self, hs⟩
    exact absurd hr List.not_mem_nil

end WellFormed

/-- **FIRST of a sequence of a built grammar holds exactly the literals that something derived from
the sequence begins with.** -/
theorem Built.firstOf_exact (hg : g.Built) (h : g.hasAll w) :
    ∃ set, g.firstOf w = .ok set ∧
      ∀ t, t ∈ set ↔ g.isLiteral t ∧ ∃ rest, g.Derives (visible w) (t :: rest) := by
  obtain ⟨sets, hs, hfirst⟩ := hg.wellFormed.firstOf_eq_ok h
  exact ⟨sets.firstOf g w, hfirst, fun t => hs.mem_firstOf_iff_derives hg.wellFormed⟩

theorem firstOf_exact_tangled : ∃ set, tangled.firstOf [3, epsilonId, 4, endMarkId, 5] = .ok set ∧
    ∀ t, t ∈ set ↔ tangled.isLiteral t ∧
      ∃ rest, tangled.Derives (visible [3, epsilonId, 4, endMarkId, 5]) (t :: rest) :=
  tangled_built.firstOf_exact rfl

/-- **A built grammar knows exactly which sequences derive the empty one.**  The answer for a symbol
agrees with the one for the symbol alone.  It is no for every literal, and for every non-terminal of
a cycle without a grounded alternative. -/
theorem Built.derivesEmpty_exact (hg : g.Built) :
    (∀ w, g.hasAll w →
      ∃ b, g.sequenceDerivesEmpty w = .ok b ∧ (b = true ↔ g.Derives (visible w) [])) ∧
    (∀ s, g.derivesEmpty s = g.sequenceDerivesEmpty [s]) ∧
    (∀ s, g.isLiteral s → g.derivesEmpty s = .ok false) ∧
    ∀ cycle, g.Ungrounded cycle → ∀ s ∈ cycle, g.derivesEmpty s = .ok false := by
  have hwell := hg.wellFormed
  refine ⟨fun w hw => hwell.sequenceDerivesEmpty_eq_ok hw, fun s => derivesEmpty_eq,
    fun s hs => ?_, fun cycle hcycle s hs => hwell.derivesEmpty_eq_false hcycle (Or.inl hs)⟩
  have hnone : g.Ungrounded [] :=
    ⟨fun _ h => absurd h List.not_mem_nil, fun _ _ h => absurd h List.not_mem_nil⟩
  exact hwell.derivesEmpty_eq_false hnone (Or.inr hs)

theorem derivesEmpty_exact_tangled :
    (∃ b, tangled.sequenceDerivesEmpty [3, epsilonId, 4] = .ok b ∧
      (b = true ↔ tangled.Derives (visible [3, epsilonId, 4]) [])) ∧
    tangled.derivesEmpty endMarkId = .ok false ∧ tangled.derivesEmpty 5 = .ok false := by
  obtain ⟨hsequence, -, hliteral, hcycle⟩ := tangled_built.derivesEmpty_exact
  have hloop : tangled.Ungrounded [5] := ⟨by decide, by decide⟩
  exact ⟨hsequence _ rfl, hliteral _ rfl, hcycle [5] hloop 5 List.mem_cons_self⟩

end GrammarTables.Grammar
