import GrammarTables.Proofs.Analysis.First

/-!
# Proofs/Analysis/Follow — FOLLOW is exactly what can come after

A literal can come after a symbol (`Grammar.ComesAfter`) when it stands right after it in a form of
some non-terminal, or is the end mark and the symbol ends a form of the start symbol.

*Soundness* is an induction on rounds.  *Completeness* is an induction on the derivation of the
form, over all places of the form at once: the last step puts a right side in the place of its left
side, and each place of the new form lies before, in, or after that right side.
-/

namespace GrammarTables

/-- The literal `t` can come after the symbol `s`. -/
def Grammar.ComesAfter (g : Grammar) (s t : SymbolId) : Prop :=
  (∃ x before after, g.isNonTerminal x ∧ g.Derives [x] (before ++ s :: t :: after)) ∨
    t = endMarkId ∧ ∃ before, g.Derives [g.start] (before ++ [s])

namespace Sets.Settled

open Grammar

variable {g : Grammar} {sets : Sets} {p : Production} {s t x : SymbolId}
  {before rest : List SymbolId} (hs : sets.Settled g) (hg : g.WellFormed)

/-! ## FOLLOW is closed -/

include hs in
theorem isLiteral_of_mem_followOf (ht : t ∈ sets.followOf s) : g.isLiteral t :=
  hs.follow_fits.isLiteral ht

include hs in
theorem isLiteral_of_mem_predict {w : List SymbolId} (ht : t ∈ sets.predict g s w) :
    g.isLiteral t :=
  (mem_firstOrFollow.mp ht).elim (isLiteral_of_mem_firstOfSequence hs.first_fits.isLiteral)
    fun ⟨_, ht⟩ => hs.isLiteral_of_mem_followOf ht

include hs in
/-- What comes after an occurrence in a right side is in FOLLOW. -/
theorem mem_followOf_of_right (hp : p ∈ g.productions) (hright : p.right = before ++ s :: rest)
    (h : g.isNonTerminal s)
    (ht : t ∈ sets.firstOf g rest ∨ sets.nullableAll rest ∧ t ∈ sets.followOf p.left) :
    t ∈ sets.followOf s := by
  have hfix : g.followRound sets.nullable sets.first sets.follow = sets.follow :=
    (settle?_eq_some hs.follow_settled).1
  have hlt : s < sets.follow.length := by
    rw [hs.follow_fits.length_eq]
    exact lt_length_of_isNonTerminal h
  exact SetTable.mem_of_addAll_eq hfix hlt
    (mem_moreFollow.mpr ⟨h, p, hp, before, rest, hright, rfl⟩) (mem_firstOrFollow.mpr ht)

include hs hg

/-- The end mark comes after the start symbol. -/
theorem endMark_mem_followOf_start : endMarkId ∈ sets.followOf g.start := by
  refine settle?_induction hs.follow_settled
    (motive := fun table => endMarkId ∈ table.of g.start) ?_
    fun table h => SetTable.mem_of_addAll.mpr (Or.inl h)
  exact hg.mem_start_iff.mpr ⟨rfl, rfl⟩

/-! ## Soundness -/

omit hs in
/-- A right side can be put in the place of its left side at the end of a form. -/
theorem derives_occurrence (hp : p ∈ g.productions) (hright : p.right = before ++ s :: rest)
    (h : g.isNonTerminal s) : g.Derives [p.left] (visible before ++ s :: visible rest) := by
  have hstep := derives_of_mem hp
  rwa [hright, visible_append, visible_cons_of_ne (hg.ne_epsilon_of_isNonTerminal h)] at hstep

/-- What FOLLOW of a symbol holds can come after it. -/
theorem comesAfter_of_mem_followOf (ht : t ∈ sets.followOf s) : g.ComesAfter s t := by
  refine settle?_induction hs.follow_settled
    (motive := fun table => ∀ s t, t ∈ table.of s → g.ComesAfter s t) ?_ ?_ s t ht
  · intro s t ht
    obtain ⟨rfl, rfl⟩ := hg.mem_start_iff.mp ht
    exact Or.inr ⟨rfl, [], .refl _⟩
  · intro table ih s t ht
    rcases SetTable.mem_of_addAll.mp ht with ht | ⟨-, set, hmem, ht⟩
    · exact ih s t ht
    obtain ⟨hnonTerminal, p, hp, before, rest, hright, rfl⟩ := mem_moreFollow.mp hmem
    have hoccurs := derives_occurrence hg hp hright hnonTerminal
    rcases mem_firstOrFollow.mp ht with ht | ⟨hnull, ht⟩
    · obtain ⟨after, hafter⟩ := hs.exists_derives_of_mem_firstOf hg ht
      have hctx := hafter.context (visible before ++ [s]) []
      refine Or.inl ⟨p.left, visible before, after, hg.isNonTerminal_left hp, hoccurs.trans ?_⟩
      simpa using hctx
    · have hends : g.Derives [p.left] (visible before ++ [s]) := by
        have hctx := (hs.derives_nil_of_nullableAll hg hnull).context (visible before ++ [s]) []
        refine hoccurs.trans ?_
        simpa using hctx
      rcases ih p.left t ht with ⟨x, front, after, hx, hform⟩ | ⟨rfl, front, hform⟩
      · have hctx := hends.context front (t :: after)
        refine Or.inl ⟨x, front ++ visible before, after, hx, hform.trans ?_⟩
        simpa using hctx
      · have hctx := hends.context front []
        refine Or.inr ⟨rfl, front ++ visible before, hform.trans ?_⟩
        simpa using hctx

/-! ## Completeness -/

/-- What a form of `x` begins with is in FOLLOW of the non-terminal before it, and so is the end
mark when `x` is the start symbol and the form is nullable. -/
theorem mem_followOf_of_derives {form : List SymbolId} (h : g.Derives [x] form) :
    ∀ before s rest t, form = before ++ s :: rest → g.isNonTerminal s →
      t ∈ sets.firstOf g rest ∨ sets.nullableAll rest ∧ x = g.start ∧ t = endMarkId →
      t ∈ sets.followOf s := by
  induction h with
  | refl =>
    intro before s rest t hform hnonTerminal ht
    obtain ⟨rfl, hcons⟩ : before = [] ∧ [x] = s :: rest := by
      cases before with
      | nil => exact ⟨rfl, hform⟩
      | cons b before => exact absurd hform (by simp)
    obtain ⟨rfl, rfl⟩ := List.cons.inj hcons
    rcases ht with ht | ⟨-, rfl, rfl⟩
    · exact absurd ht List.not_mem_nil
    · exact hs.endMark_mem_followOf_start hg
  | tail _ hstep ih =>
    intro before s rest t hform hnonTerminal ht
    obtain ⟨u, v, p, hp⟩ := hstep
    have hstep (w : List SymbolId) : g.Derives (w ++ p.left :: v) (w ++ visible p.right ++ v) :=
      .single (.intro w v p hp)
    rw [List.append_assoc] at hform
    rcases append_eq_append_cons hform with ⟨w, rfl, rfl⟩ | ⟨w, -, hw⟩
    · -- before the right side, which the step read backwards turns into the left side
      refine ih before s (w ++ p.left :: v) t (by simp) hnonTerminal ?_
      rw [← List.append_assoc] at ht
      exact ht.imp (hs.mem_firstOf_of_derives hg (hstep w))
        (And.imp_left (hs.nullableAll_of_derives (hstep w)))
    rcases append_eq_append_cons hw with ⟨y, hy, rfl⟩ | ⟨y, -, rfl⟩
    · -- in the right side, at whose end the left side's own place goes on
      obtain ⟨front, back, hright, -, rfl⟩ := exists_of_visible_eq_append hy
      refine hs.mem_followOf_of_right hp hright hnonTerminal ?_
      rw [hs.mem_firstOf_append hg, hs.mem_firstOf_visible hg, nullableAll_append,
        hs.nullableAll_visible] at ht
      have hleft := ih u p.left v t rfl (hg.isNonTerminal_left hp)
      rcases ht with (ht | ⟨hnull, ht⟩) | ⟨⟨hnull, hv⟩, ht⟩
      · exact Or.inl ht
      · exact Or.inr ⟨hnull, hleft (Or.inl ht)⟩
      · exact Or.inr ⟨hnull, hleft (Or.inr ⟨hv, ht⟩)⟩
    · exact ih (u ++ p.left :: y) s rest t (by simp) hnonTerminal ht

/-- **A literal is in FOLLOW of a non-terminal exactly when it can come after it.** -/
theorem mem_followOf_iff (h : g.isNonTerminal s) :
    t ∈ sets.followOf s ↔ g.isLiteral t ∧ g.ComesAfter s t := by
  constructor
  · exact fun ht => ⟨hs.isLiteral_of_mem_followOf ht, hs.comesAfter_of_mem_followOf hg ht⟩
  · rintro ⟨hliteral, ⟨x, before, after, -, hform⟩ | ⟨rfl, before, hform⟩⟩
    · refine hs.mem_followOf_of_derives hg hform before s _ t rfl h (Or.inl ?_)
      rw [firstOf_cons_of_isLiteral hliteral]
      exact List.mem_cons_self
    · exact hs.mem_followOf_of_derives hg hform before s [] endMarkId rfl h
        (Or.inr ⟨rfl, rfl, rfl⟩)

/-- **A production is predicted on the literals that its right side can begin with**, and where the
right side can vanish also on those of FOLLOW. -/
theorem mem_predict_iff_derives : t ∈ sets.predict g p.left p.right ↔
    (g.isLiteral t ∧ ∃ rest, g.Derives (visible p.right) (t :: rest)) ∨
      g.Derives (visible p.right) [] ∧ t ∈ sets.followOf p.left := by
  rw [← hs.mem_firstOf_iff_derives hg, ← hs.nullableAll_iff_derives hg]
  exact mem_firstOrFollow

/-! ## The lookahead in front of a tree -/

open GrammarTables.Derivation

/-- A forest before `t` begins with a literal of FIRST of its roots, or is empty. -/
theorem exists_cons_of_forestValid {ds : List Derivation} (hds : ForestValid g ds)
    (t : SymbolId) (tail : List SymbolId) :
    ∃ r rest, forestFrontier ds ++ t :: tail = r :: rest ∧
      (r ∈ sets.firstOf g (ds.map root) ∨ sets.nullableAll (ds.map root) ∧ r = t) := by
  have hderives := ForestValid.derives hg ds hds
  cases hfrontier : forestFrontier ds with
  | nil =>
    rw [hfrontier] at hderives
    exact ⟨t, tail, rfl, Or.inr ⟨(hs.nullableAll_iff_derives hg).mpr hderives, rfl⟩⟩
  | cons r rest =>
    rw [hfrontier] at hderives
    have hliteral : g.isLiteral r :=
      ForestValid.isWord_frontier ds hds r (hfrontier ▸ List.mem_cons_self)
    exact ⟨r, rest ++ t :: tail, rfl,
      Or.inl ((hs.mem_firstOf_iff_derives hg).mpr ⟨hliteral, rest, hderives⟩)⟩

/-- **A tree before a literal of FOLLOW begins with a literal of PREDICT of its production.** -/
theorem exists_mem_predict {ds : List Derivation} (hd : (node p ds).Valid g)
    (ht : t ∈ sets.followOf p.left) (tail : List SymbolId) :
    ∃ r rest, forestFrontier ds ++ t :: tail = r :: rest ∧ g.isLiteral r ∧
      r ∈ sets.predict g p.left p.right := by
  obtain ⟨hp, hroots, hds⟩ := hd
  obtain ⟨r, rest, hcons, hr⟩ := hs.exists_cons_of_forestValid hg hds t tail
  rw [hroots] at hr
  have hpredict : r ∈ sets.predict g p.left p.right :=
    mem_firstOrFollow.mpr (hr.imp_right fun ⟨hnull, heq⟩ => ⟨hnull, heq ▸ ht⟩)
  refine ⟨r, rest, hcons, ?_, hpredict⟩
  rcases hr with hr | ⟨-, rfl⟩
  · exact isLiteral_of_mem_firstOfSequence hs.first_fits.isLiteral hr
  · exact hs.isLiteral_of_mem_followOf ht

/-- **What stands after a child is in FOLLOW of the child**, if that is so for its parent. -/
theorem exists_mem_followOf_child {ds : List Derivation} (hp : p ∈ g.productions)
    (hright : p.right = before ++ s :: ds.map root) (hds : ForestValid g ds)
    (ht : t ∈ sets.followOf p.left) (tail : List SymbolId) :
    ∃ r rest, forestFrontier ds ++ t :: tail = r :: rest ∧
      (g.isNonTerminal s → r ∈ sets.followOf s) := by
  obtain ⟨r, rest, hcons, hr⟩ := hs.exists_cons_of_forestValid hg hds t tail
  exact ⟨r, rest, hcons, fun h => hs.mem_followOf_of_right hp hright h
    (hr.imp_right fun ⟨hnull, heq⟩ => ⟨hnull, heq ▸ ht⟩)⟩

end Sets.Settled

/-! ## The question by number -/

namespace Grammar

variable {g : Grammar} {s : SymbolId}

/-- A non-terminal of a well-formed grammar has a FOLLOW set. -/
theorem WellFormed.followOf_eq_ok (hg : g.WellFormed) (h : g.isNonTerminal s) :
    ∃ sets, sets.Settled g ∧ g.sets = .ok sets ∧ g.followOf s = .ok (sets.followOf s) := by
  obtain ⟨sets, hsets, hs⟩ := hg.exists_sets
  obtain ⟨name, alternatives, hsymbol⟩ := isNonTerminal_iff.mp h
  refine ⟨sets, hs, hsets, ?_⟩
  rw [followOf, Grammar.alternatives, symbol, hsymbol, hsets]
  rfl

/-- Only non-terminals have one. -/
theorem isNonTerminal_of_followOf_eq_ok {set : List SymbolId} (h : g.followOf s = .ok set) :
    g.isNonTerminal s := by
  rw [followOf, Grammar.alternatives, symbol] at h
  rw [isNonTerminal_iff]
  cases hs : g.symbol? s with
  | none => simp [hs, bind, Except.bind] at h
  | some symbol =>
    rw [hs] at h
    cases symbol with
    | nonTerminal name alternatives => exact ⟨name, alternatives, rfl⟩
    | _ => simp [bind, Except.bind] at h

/-- FOLLOW is what the question by number answers. -/
theorem WellFormed.mem_followOf_iff_exists {sets : Sets} {t : SymbolId} (hg : g.WellFormed)
    (hsets : g.sets = .ok sets) (h : g.isNonTerminal s) :
    t ∈ sets.followOf s ↔ ∃ set, g.followOf s = .ok set ∧ t ∈ set := by
  obtain ⟨sets', -, hsets', hok⟩ := hg.followOf_eq_ok h
  obtain rfl := Except.ok.inj (hsets.symm.trans hsets')
  constructor
  · exact fun ht => ⟨_, hok, ht⟩
  · rintro ⟨set, hset, ht⟩
    rwa [← Except.ok.inj (hset.symm.trans hok)]

/-- **FOLLOW of a non-terminal of a built grammar holds exactly the literals that can come after
it.** -/
theorem Built.followOf_exact (hg : g.Built) (h : g.isNonTerminal s) :
    ∃ set, g.followOf s = .ok set ∧ ∀ t, t ∈ set ↔ g.isLiteral t ∧ g.ComesAfter s t := by
  obtain ⟨sets, hs, -, hfollow⟩ := hg.wellFormed.followOf_eq_ok h
  exact ⟨sets.followOf s, hfollow, fun t => hs.mem_followOf_iff hg.wellFormed h⟩

theorem followOf_exact_nested : ∃ set, nested.followOf 2 = .ok set ∧
    ∀ t, t ∈ set ↔ nested.isLiteral t ∧ nested.ComesAfter 2 t :=
  nested_built.followOf_exact rfl

end Grammar

end GrammarTables
