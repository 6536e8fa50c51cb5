import GrammarTables.Proofs.Grammar.WellFormed
import Mathlib.Logic.Relation

/-!
# Proofs/Grammar/Derives — sentential forms and derivation trees

A sentential form is a sequence without the empty string: a production puts the visible part of its
right side in the place of its left side (`Grammar.Produces`), and `Grammar.Derives` does so any
number of times.

A `Derivation` is the tree of such a derivation, with the production written at each inner node, so
two alternatives of one non-terminal stay apart even where their right sides agree.  The two views
give the same words: `Derivation.Valid.derives` and `Grammar.Derives.exists_derivation`.
-/

namespace GrammarTables

/-! ## Visible parts -/

/-- A sequence without the empty string. -/
def visible (w : List SymbolId) : List SymbolId :=
  w.filter fun s => s ≠ epsilonId

section Visible

variable {s : SymbolId} {v w : List SymbolId}

@[simp]
theorem visible_epsilon_cons : visible (epsilonId :: w) = visible w :=
  rfl

theorem visible_cons_of_ne (h : s ≠ epsilonId) : visible (s :: w) = s :: visible w := by
  rw [visible, List.filter_cons, if_pos (decide_eq_true h)]
  rfl

@[simp]
theorem visible_append : visible (v ++ w) = visible v ++ visible w :=
  List.filter_append ..

theorem visible_cons : visible (s :: w) = visible [s] ++ visible w :=
  visible_append (v := [s])

/-- A place in two neighbouring sequences lies in the first or in the second. -/
theorem append_eq_append_cons {a c : List SymbolId} (h : v ++ w = a ++ s :: c) :
    (∃ b, v = a ++ s :: b ∧ c = b ++ w) ∨ ∃ b, a = v ++ b ∧ w = b ++ s :: c := by
  rcases List.append_eq_append_iff.mp h with ⟨b, ha, hw⟩ | ⟨b, hv, hcons⟩
  · exact Or.inr ⟨b, ha, hw⟩
  · cases b with
    | nil => exact Or.inr ⟨[], by rw [hv, List.append_nil, List.append_nil], hcons.symm⟩
    | cons r b =>
      obtain ⟨rfl, rfl⟩ := List.cons.inj hcons
      exact Or.inl ⟨b, hv, rfl⟩

/-- What stands before and after a visible symbol of a sequence, empty strings included. -/
theorem exists_of_visible_eq_append {a c : List SymbolId} (h : visible w = a ++ s :: c) :
    ∃ u v, w = u ++ s :: v ∧ visible u = a ∧ visible v = c := by
  obtain ⟨u, v, rfl, hu, hv⟩ := List.filter_eq_append_iff.mp h
  obtain ⟨u', v', rfl, hnone, -, hv'⟩ := List.filter_eq_cons_iff.mp hv
  refine ⟨u ++ u', v', by rw [List.append_assoc], ?_, hv'⟩
  have hnil : visible u' = [] := List.filter_eq_nil_iff.mpr hnone
  rw [visible_append, hnil, List.append_nil]
  exact hu

end Visible

/-! ## Derivations as rewriting -/

namespace Grammar

variable {g : Grammar} {p : Production} {u v w u' v' w' : List SymbolId}

/-- One production is used at one place. -/
inductive Produces (g : Grammar) : List SymbolId → List SymbolId → Prop
  | intro (u v : List SymbolId) (p : Production) (hp : p ∈ g.productions) :
    Produces g (u ++ p.left :: v) (u ++ visible p.right ++ v)

/-- Productions are used any number of times. -/
def Derives (g : Grammar) : List SymbolId → List SymbolId → Prop :=
  Relation.ReflTransGen g.Produces

/-- A sequence of terminals and end marks. -/
def IsWord (g : Grammar) (w : List SymbolId) : Prop :=
  ∀ s ∈ w, g.isLiteral s

theorem Derives.refl (w : List SymbolId) : g.Derives w w :=
  Relation.ReflTransGen.refl

theorem Derives.trans (h : g.Derives u v) (h' : g.Derives v w) : g.Derives u w :=
  Relation.ReflTransGen.trans h h'

theorem derives_of_mem (hp : p ∈ g.productions) : g.Derives [p.left] (visible p.right) := by
  have h : g.Produces ([] ++ p.left :: []) ([] ++ visible p.right ++ []) := .intro [] [] p hp
  rw [List.nil_append, List.nil_append, List.append_nil] at h
  exact Relation.ReflTransGen.single h

/-- A derivation can happen between two sequences that stay. -/
theorem Derives.context (u v : List SymbolId) (h : g.Derives w w') :
    g.Derives (u ++ w ++ v) (u ++ w' ++ v) := by
  induction h with
  | refl => exact .refl _
  | tail _ hstep ih =>
    obtain ⟨a, c, p, hp⟩ := hstep
    have hstep : g.Produces ((u ++ a) ++ p.left :: (c ++ v))
        ((u ++ a) ++ visible p.right ++ (c ++ v)) := .intro _ _ p hp
    refine Relation.ReflTransGen.tail ih ?_
    simpa only [List.append_assoc, List.cons_append] using hstep

/-- Neighbours derive on their own. -/
theorem Derives.append (h : g.Derives u u') (h' : g.Derives v v') :
    g.Derives (u ++ v) (u' ++ v') := by
  have hleft := h.context [] v
  have hright := h'.context u' []
  rw [List.append_nil, List.append_nil] at hright
  exact hleft.trans hright

/-- A sequence all of whose symbols derive the empty one does so itself. -/
theorem derives_nil_of_forall (h : ∀ s ∈ w, g.Derives [s] []) : g.Derives w [] := by
  induction w with
  | nil => exact .refl []
  | cons s w ih =>
    exact (h s List.mem_cons_self).append (ih fun t ht => h t (List.mem_cons_of_mem s ht))

end Grammar

/-! ## Derivation trees -/

/-- The tree of a derivation. -/
inductive Derivation
  /-- The empty string or a literal. -/
  | leaf (s : SymbolId)
  | node (p : Production) (children : List Derivation)

namespace Derivation

/-- The symbol that is derived from. -/
def root : Derivation → SymbolId
  | leaf s => s
  | node p _ => p.left

mutual

/-- The literals at the leaves, from left to right. -/
def frontier : Derivation → List SymbolId
  | leaf s => visible [s]
  | node _ ds => forestFrontier ds

/-- The literals at the leaves of several trees. -/
def forestFrontier : List Derivation → List SymbolId
  | [] => []
  | d :: ds => frontier d ++ forestFrontier ds

end

mutual

/-- Inner nodes are productions of the grammar with the symbols of their right sides below them, and
leaves are the empty string or literals. -/
def Valid (g : Grammar) : Derivation → Prop
  | leaf s => s = epsilonId ∨ g.isLiteral s
  | node p ds => p ∈ g.productions ∧ ds.map root = p.right ∧ ForestValid g ds

/-- All of several trees are valid. -/
def ForestValid (g : Grammar) : List Derivation → Prop
  | [] => True
  | d :: ds => Valid g d ∧ ForestValid g ds

end

variable {g : Grammar} {d : Derivation} {ds es : List Derivation}

@[simp]
theorem forestFrontier_append :
    forestFrontier (ds ++ es) = forestFrontier ds ++ forestFrontier es := by
  induction ds with
  | nil => rfl
  | cons d ds ih =>
    rw [List.cons_append, forestFrontier, ih, forestFrontier, List.append_assoc]

theorem forestValid_append :
    ForestValid g (ds ++ es) ↔ ForestValid g ds ∧ ForestValid g es := by
  induction ds with
  | nil => rw [List.nil_append, ForestValid, true_and]
  | cons d ds ih => rw [List.cons_append, ForestValid, ih, ForestValid, and_assoc]

/-- A valid leaf is below no non-terminal. -/
theorem Valid.not_isNonTerminal_leaf (hg : g.WellFormed) {s : SymbolId} (h : (leaf s).Valid g) :
    ¬ g.isNonTerminal s := by
  intro hs
  rcases h with rfl | hliteral
  · exact hg.ne_epsilon_of_isNonTerminal hs rfl
  · rw [Grammar.isNonTerminal_eq_false_of_isLiteral hliteral] at hs
    exact nomatch hs

/-- A valid tree below the empty string or a literal is the leaf. -/
theorem Valid.eq_leaf (hg : g.WellFormed) (hd : d.Valid g) (h : ¬ g.isNonTerminal d.root) :
    d = leaf d.root := by
  cases d with
  | leaf s => rfl
  | node p ds => exact absurd (hg.isNonTerminal_left hd.1) h

/-- A valid tree below a non-terminal has a production. -/
theorem Valid.exists_node (hg : g.WellFormed) (hd : d.Valid g) (h : g.isNonTerminal d.root) :
    ∃ p ds, d = node p ds := by
  cases d with
  | leaf s => exact absurd h (hd.not_isNonTerminal_leaf hg)
  | node p ds => exact ⟨p, ds, rfl⟩

/-! ### From trees to rewriting -/

mutual

/-- **A valid tree derives its frontier.** -/
theorem Valid.derives (hg : g.WellFormed) :
    ∀ d : Derivation, d.Valid g → g.Derives (visible [d.root]) d.frontier
  | leaf _, _ => .refl _
  | node p ds, hd => by
    obtain ⟨hp, hroots, hds⟩ := hd
    have hroot : visible [p.left] = [p.left] := visible_cons_of_ne (hg.left_ne_epsilon hp)
    have hforest := ForestValid.derives hg ds hds
    rw [hroots] at hforest
    rw [root, hroot, frontier]
    exact (Grammar.derives_of_mem hp).trans hforest

theorem ForestValid.derives (hg : g.WellFormed) :
    ∀ ds : List Derivation, ForestValid g ds →
      g.Derives (visible (ds.map root)) (forestFrontier ds)
  | [], _ => .refl _
  | d :: ds, h => by
    rw [List.map_cons, visible_cons, forestFrontier]
    exact (Valid.derives hg d h.1).append (ForestValid.derives hg ds h.2)

end

mutual

theorem Valid.isWord_frontier :
    ∀ d : Derivation, d.Valid g → g.IsWord d.frontier
  | leaf s, hd => by
    intro t ht
    obtain ⟨ht, hne⟩ := List.mem_filter.mp ht
    obtain rfl := List.mem_singleton.mp ht
    exact hd.resolve_left (of_decide_eq_true hne)
  | node _ ds, hd => ForestValid.isWord_frontier ds hd.2.2

theorem ForestValid.isWord_frontier :
    ∀ ds : List Derivation, ForestValid g ds → g.IsWord (forestFrontier ds)
  | [], _ => fun _ ht => absurd ht List.not_mem_nil
  | d :: ds, h => fun t ht => (List.mem_append.mp ht).elim
      (Valid.isWord_frontier d h.1 t) (ForestValid.isWord_frontier ds h.2 t)

end

/-! ### From rewriting to trees -/

/-- The empty strings of a right side can be put back between the trees of its visible symbols. -/
theorem exists_forest_of_visible {right : List SymbolId} (hroots : ds.map root = visible right)
    (hds : ForestValid g ds) :
    ∃ es, es.map root = right ∧ ForestValid g es ∧ forestFrontier es = forestFrontier ds := by
  induction right generalizing ds with
  | nil => exact ⟨ds, hroots, hds, rfl⟩
  | cons s right ih =>
    by_cases hs : s = epsilonId
    · subst hs
      obtain ⟨es, hes, hvalid, hfrontier⟩ := ih hroots hds
      exact ⟨leaf epsilonId :: es, by rw [List.map_cons, hes]; rfl, ⟨Or.inl rfl, hvalid⟩, hfrontier⟩
    · rw [visible_cons_of_ne hs] at hroots
      obtain ⟨d, ds', rfl, hd, hroots⟩ := List.map_eq_cons_iff.mp hroots
      obtain ⟨es, hes, hvalid, hfrontier⟩ := ih hroots hds.2
      refine ⟨d :: es, by rw [List.map_cons, hes, hd], ⟨hds.1, hvalid⟩, ?_⟩
      rw [forestFrontier, hfrontier, forestFrontier]

/-- The leaves over a word. -/
theorem exists_forest_of_isWord (hg : g.WellFormed) {w : List SymbolId} (hw : g.IsWord w) :
    ∃ ds, ds.map root = w ∧ ForestValid g ds ∧ forestFrontier ds = w := by
  induction w with
  | nil => exact ⟨[], rfl, trivial, rfl⟩
  | cons s w ih =>
    obtain ⟨ds, hroots, hds, hfrontier⟩ := ih fun t ht => hw t (List.mem_cons_of_mem s ht)
    have hs := hw s List.mem_cons_self
    refine ⟨leaf s :: ds, by rw [List.map_cons, hroots]; rfl, ⟨Or.inr hs, hds⟩, ?_⟩
    rw [forestFrontier, frontier, visible_cons_of_ne (hg.ne_epsilon_of_isLiteral hs), hfrontier]
    rfl

end Derivation

namespace Grammar

open GrammarTables.Derivation

/-- Every derivation of a word has a forest, one tree for each symbol that is derived from. -/
theorem Derives.exists_forest {g : Grammar} (hg : g.WellFormed) {v w : List SymbolId}
    (h : g.Derives v w) (hw : g.IsWord w) :
    ∃ ds, ds.map root = v ∧ ForestValid g ds ∧ forestFrontier ds = w := by
  induction h using Relation.ReflTransGen.head_induction_on with
  | refl => exact exists_forest_of_isWord hg hw
  | head hstep _ ih =>
    obtain ⟨u, v, p, hp⟩ := hstep
    obtain ⟨ds, hroots, hds, hfrontier⟩ := ih
    obtain ⟨front, back, rfl, hfront, hback⟩ := List.map_eq_append_iff.mp hroots
    obtain ⟨before, children, rfl, hbefore, hchildren⟩ := List.map_eq_append_iff.mp hfront
    obtain ⟨hfrontValid, hbackValid⟩ := forestValid_append.mp hds
    obtain ⟨hbeforeValid, hchildrenValid⟩ := forestValid_append.mp hfrontValid
    obtain ⟨es, hes, hesValid, hesFrontier⟩ := exists_forest_of_visible hchildren hchildrenValid
    refine ⟨before ++ node p es :: back, ?_, ?_, ?_⟩
    · rw [List.map_append, List.map_cons, hbefore, hback]
      rfl
    · exact forestValid_append.mpr ⟨hbeforeValid, ⟨hp, hes, hesValid⟩, hbackValid⟩
    · rw [← hfrontier, forestFrontier_append, forestFrontier, Derivation.frontier, hesFrontier,
        forestFrontier_append, forestFrontier_append, List.append_assoc]

/-- **Every word that a symbol derives has a tree.** -/
theorem Derives.exists_derivation {g : Grammar} (hg : g.WellFormed) {s : SymbolId}
    {w : List SymbolId} (h : g.Derives [s] w) (hw : g.IsWord w) :
    ∃ d : Derivation, d.Valid g ∧ d.root = s ∧ d.frontier = w := by
  obtain ⟨ds, hroots, hds, hfrontier⟩ := h.exists_forest hg hw
  obtain ⟨d, rest, rfl, hd, hrest⟩ := List.map_eq_cons_iff.mp hroots
  obtain rfl := List.map_eq_nil_iff.mp hrest
  refine ⟨d, hds.1, hd, ?_⟩
  rw [← hfrontier, forestFrontier, forestFrontier, List.append_nil]

end Grammar

end GrammarTables
