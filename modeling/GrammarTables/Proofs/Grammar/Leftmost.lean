import GrammarTables.Proofs.Grammar.Derives

/-!
# Proofs/Grammar/Leftmost — derivations read from the left

What two neighbours derive falls into what each of them derives (`Derives.exists_append`), and a
literal derives nothing but itself.  So a form that begins with a literal goes on deriving behind it
(`derives_cons_iff_of_isLiteral`), and one that begins with a non-terminal and derives something
that begins with a literal can use a production of that non-terminal first
(`Derives.exists_production_of_cons`).
-/

namespace GrammarTables.Grammar

variable {g : Grammar} {s t : SymbolId} {u v w rest : List SymbolId}

/-- **What neighbours derive falls into what each of them derives.** -/
theorem Derives.exists_append (h : g.Derives (u ++ v) w) :
    ∃ u' v', w = u' ++ v' ∧ g.Derives u u' ∧ g.Derives v v' := by
  induction h with
  | refl => exact ⟨u, v, rfl, .refl u, .refl v⟩
  | tail _ hstep ih =>
    obtain ⟨u', v', hform, hu, hv⟩ := ih
    obtain ⟨a, c, p, hp⟩ := hstep
    rcases append_eq_append_cons hform.symm with ⟨b, rfl, rfl⟩ | ⟨b, rfl, rfl⟩
    · exact ⟨a ++ visible p.right ++ b, v', by simp, hu.tail (.intro a b p hp), hv⟩
    · exact ⟨u', b ++ visible p.right ++ c, by simp, hu, hv.tail (.intro b c p hp)⟩

/-- Nothing can be derived from the empty form. -/
theorem derives_nil_iff : g.Derives [] w ↔ w = [] := by
  constructor
  · intro h
    rcases Relation.ReflTransGen.cases_head h with hw | ⟨v, hstep, -⟩
    · exact hw.symm
    · generalize hnil : ([] : List SymbolId) = form at hstep
      obtain ⟨a, c, p, -⟩ := hstep
      exact absurd hnil (by simp)
  · rintro rfl
    exact .refl []

namespace WellFormed

variable (hg : g.WellFormed)

include hg

/-- A literal derives nothing but itself. -/
theorem derives_singleton_iff_of_isLiteral (hs : g.isLiteral s) : g.Derives [s] w ↔ w = [s] := by
  constructor
  · intro h
    rcases Relation.ReflTransGen.cases_head h with hw | ⟨v, hstep, -⟩
    · exact hw.symm
    · generalize hform : [s] = form at hstep
      obtain ⟨a, c, p, hp⟩ := hstep
      have hmem : p.left ∈ [s] := by rw [hform]; simp
      exact absurd (List.mem_singleton.mp hmem) (hg.left_ne_of_isLiteral hp hs)
  · rintro rfl
    exact .refl [s]

/-- **A literal in front stays**, and what is behind it derives on its own. -/
theorem derives_cons_iff_of_isLiteral (hs : g.isLiteral s) :
    g.Derives (s :: v) w ↔ ∃ w', w = s :: w' ∧ g.Derives v w' := by
  constructor
  · intro h
    obtain ⟨s', w', rfl, hfront, hback⟩ := Derives.exists_append (u := [s]) h
    rw [(hg.derives_singleton_iff_of_isLiteral hs).mp hfront]
    exact ⟨w', rfl, hback⟩
  · rintro ⟨w', rfl, h⟩
    exact (Derives.refl [s]).append h

/-- A non-terminal in a form of `x` and an end mark stands in a form of `x`. -/
theorem exists_derives_of_endMark {x : SymbolId} (hs : g.isNonTerminal s)
    (h : g.Derives [x, endMarkId] (u ++ s :: v)) :
    ∃ v', v = v' ++ [endMarkId] ∧ g.Derives [x] (u ++ s :: v') := by
  obtain ⟨front, back, hsplit, hfront, hback⟩ := Derives.exists_append (u := [x]) h
  obtain rfl := (hg.derives_singleton_iff_of_isLiteral hg.isLiteral_endMark).mp hback
  rcases append_eq_append_cons hsplit.symm with ⟨v', rfl, rfl⟩ | ⟨b, -, hcons⟩
  · exact ⟨v', rfl, hfront⟩
  · have hmem : s ∈ [endMarkId] := by rw [hcons]; simp
    rw [List.mem_singleton.mp hmem, isNonTerminal_eq_false_of_isLiteral hg.isLiteral_endMark] at hs
    exact nomatch hs

end WellFormed

/-- **A symbol in front that has to give way is the left side of a production that can be used
first.** -/
theorem Derives.exists_production_of_cons (h : g.Derives (s :: v) (t :: rest)) (hne : s ≠ t) :
    ∃ p ∈ g.productions, p.left = s ∧ g.Derives (visible p.right ++ v) (t :: rest) := by
  generalize hform : s :: v = form at h
  induction h using Relation.ReflTransGen.head_induction_on generalizing v with
  | refl => exact absurd (List.cons.inj hform).1 hne
  | head hstep hrest ih =>
    obtain ⟨a, c, p, hp⟩ := hstep
    cases a with
    | nil =>
      obtain ⟨rfl, rfl⟩ := List.cons.inj hform
      exact ⟨p, hp, rfl, hrest⟩
    | cons r a =>
      obtain ⟨rfl, rfl⟩ := List.cons.inj hform
      -- the first step is further right, so it can be used after the production of `s`
      obtain ⟨q, hq, hleft, hderives⟩ := ih rfl
      have hlater : g.Derives (a ++ p.left :: c) (a ++ visible p.right ++ c) :=
        Relation.ReflTransGen.single (.intro a c p hp)
      exact ⟨q, hq, hleft, ((Derives.refl _).append hlater).trans hderives⟩

end GrammarTables.Grammar
