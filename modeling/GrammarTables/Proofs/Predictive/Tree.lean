import GrammarTables.Predictive.Tree
import GrammarTables.Proofs.Predictive.Table

/-!
# Proofs/Predictive/Tree — parse trees against the grammar

`Tree.FollowsRules` asks of a parse tree only what can be seen from the symbols of its nodes;
`Tree.Shows` ties it to one derivation, production by production.  The tokens at the leaves are
`Tree.tokens`.
-/

namespace GrammarTables

namespace Tree

/-! ## The tokens at the leaves -/

mutual

/-- The tokens of the literals, from left to right. -/
def tokens : Tree → List Token
  | epsilon => []
  | literal _ token => [token]
  | branch _ children => forestTokens children

/-- The tokens of several trees. -/
def forestTokens : List Tree → List Token
  | [] => []
  | t :: ts => tokens t ++ forestTokens ts

end

variable {g : Grammar} {t : Tree} {ts us : List Tree}

/-- The leaves are read from left to right, so the tokens of trees put side by side are joined. -/
@[simp]
theorem forestTokens_append : forestTokens (ts ++ us) = forestTokens ts ++ forestTokens us := by
  induction ts with
  | nil => rfl
  | cons t ts ih => rw [List.cons_append, forestTokens, ih, forestTokens, List.append_assoc]

@[simp]
theorem forestTokens_singleton : forestTokens [t] = t.tokens :=
  List.append_nil _

/-! ## Trees that follow the rules -/

mutual

/-- The children of every branch are an alternative of its non-terminal, and every literal leaf has
a token of its name. -/
def FollowsRules (g : Grammar) : Tree → Prop
  | epsilon => True
  | literal s token => g.isLiteral s ∧ token.kind = g.nameOf s
  | branch s children =>
    (∃ alternatives, g.alternatives s = .ok alternatives ∧ children.map symbol ∈ alternatives) ∧
      ForestFollowsRules g children

/-- All of several trees follow the rules. -/
def ForestFollowsRules (g : Grammar) : List Tree → Prop
  | [] => True
  | t :: ts => FollowsRules g t ∧ ForestFollowsRules g ts

end

/-- Finished trees follow the rules when those that stood there and the new ones do; this is how an
invariant of the parser passes a new child. -/
theorem forestFollowsRules_append :
    ForestFollowsRules g (ts ++ us) ↔ ForestFollowsRules g ts ∧ ForestFollowsRules g us := by
  induction ts with
  | nil => rw [List.nil_append, ForestFollowsRules, true_and]
  | cons t ts ih =>
    rw [List.cons_append, ForestFollowsRules, ih, ForestFollowsRules, and_assoc]

theorem forestFollowsRules_singleton : ForestFollowsRules g [t] ↔ t.FollowsRules g := by
  rw [ForestFollowsRules, ForestFollowsRules, and_true]

section FollowsRules

variable {s : SymbolId} (hg : g.WellFormed)

include hg

/-- The children of a branch are the right side of a production. -/
theorem FollowsRules.exists_production (h : (branch s ts).FollowsRules g) :
    ∃ p ∈ g.productions, p.left = s ∧ p.right = ts.map symbol := by
  obtain ⟨⟨alternatives, halternatives, hmem⟩, -⟩ := h
  obtain ⟨name, hs⟩ := Grammar.alternatives_eq_ok_iff.mp halternatives
  obtain ⟨number, hnumber⟩ := List.getElem?_of_mem hmem
  obtain ⟨p, hp, hleft, -, hright⟩ := hg.mem_of_alternative hs hnumber
  exact ⟨p, hp, hleft, hright⟩

/-- A branch stands for a non-terminal, as its symbol is the left side of a production. -/
theorem FollowsRules.isNonTerminal (h : (branch s ts).FollowsRules g) : g.isNonTerminal s := by
  obtain ⟨p, hp, rfl, -⟩ := h.exists_production hg
  exact hg.isNonTerminal_left hp

/-- A branch has children: an empty alternative is written with the symbol of the empty string,
which has a leaf. -/
theorem FollowsRules.children_ne_nil (h : (branch s ts).FollowsRules g) : ts ≠ [] := by
  obtain ⟨p, hp, -, hright⟩ := h.exists_production hg
  rintro rfl
  exact hg.right_ne_nil hp hright

/-- The grammar names the root of a tree that follows its rules, whatever kind of node it is. -/
theorem FollowsRules.symbol_lt (h : t.FollowsRules g) : t.symbol < g.symbols.length := by
  cases t with
  | epsilon => exact Grammar.lt_length_of_symbol? hg.symbol_epsilon
  | literal s token => exact Grammar.lt_length_of_isLiteral h.1
  | branch s ts => exact Grammar.lt_length_of_isNonTerminal (h.isNonTerminal hg)

end FollowsRules

/-! ## Trees that show a derivation -/

mutual

/-- The tree has the productions of the derivation, and tokens of the names of its leaves. -/
inductive Shows (g : Grammar) : Tree → Derivation → Prop
  | epsilon : Shows g .epsilon (.leaf epsilonId)
  | literal {s : SymbolId} {token : Token} (h : token.kind = g.nameOf s) :
    Shows g (.literal s token) (.leaf s)
  | branch {p : Production} {ts : List Tree} {ds : List Derivation} (h : ForestShows g ts ds) :
    Shows g (.branch p.left ts) (.node p ds)

/-- Each tree shows the derivation at its place. -/
inductive ForestShows (g : Grammar) : List Tree → List Derivation → Prop
  | nil : ForestShows g [] []
  | cons {t : Tree} {d : Derivation} {ts : List Tree} {ds : List Derivation} (h : Shows g t d)
    (hs : ForestShows g ts ds) : ForestShows g (t :: ts) (d :: ds)

end

end Tree

end GrammarTables
