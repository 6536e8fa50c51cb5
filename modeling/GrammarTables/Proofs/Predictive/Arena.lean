import GrammarTables.Predictive.Arena
import GrammarTables.Proofs.Predictive.Run
import Mathlib.Logic.Relation

/-!
# Proofs/Predictive/Arena — nodes in one list are the tree that the parser builds

Two views of the list of nodes, both kept by each step.

**As a tree** (`IsTree`).  A node is only ever put at the end, below one that is there
(`IsTree.push`), so parents come before their children and the numbers in a list of children grow.

**As a drawing** (`Config.drawn`).  The nodes are those of the finished trees and the open branches,
drawn from the root inwards, one after the other: a branch that is closed stays as it was drawn.  So
the parser with its nodes in one list does what the parser with open branches does
(`Config.step_arena`), and at the end it has the numbered nodes of the tree
(`drawForest_eq`).
-/

namespace GrammarTables

/-! ## Changes of a list -/

/-- Writing to a node that is there does not reach those that are appended later. -/
theorem modify_append_left {α : Type} {xs ys : List α} {i : Nat} {f : α → α} (h : i < xs.length) :
    (xs ++ ys).modify i f = xs.modify i f ++ ys := by
  induction xs generalizing i with
  | nil => exact absurd h (Nat.not_lt_zero i)
  | cons x xs ih =>
    cases i with
    | zero => rfl
    | succ i =>
      rw [List.cons_append, List.modify_succ_cons, ih (Nat.lt_of_succ_lt_succ h),
        List.modify_succ_cons, List.cons_append]

/-- Writing to the first of them leaves those before it. -/
theorem modify_append_of_length_eq {α : Type} {xs ys : List α} {y : α} {i : Nat} {f : α → α}
    (h : xs.length = i) : (xs ++ y :: ys).modify i f = xs ++ f y :: ys := by
  subst h
  induction xs with
  | nil => rfl
  | cons x xs ih => exact congrArg (x :: ·) ih

/-! ## New nodes -/

variable {nodes : List Node} {node : Node} {parent id child : Nat} {s : SymbolId}
  {token : Option Token} {ids ids' : List Nat}

/-- Children are added in order, so several additions are one. -/
theorem Node.addChildren_addChildren :
    Node.addChildren ids' ∘ Node.addChildren ids = Node.addChildren (ids ++ ids') := by
  funext node
  rw [Function.comp_apply, addChildren, addChildren, addChildren, List.append_assoc]

theorem Node.addChildren_nil : Node.addChildren [] = (fun node => node) := by
  funext node
  rw [addChildren, List.append_nil]

@[simp]
theorem length_pushNode : (pushNode nodes parent s token).length = nodes.length + 1 := by
  rw [pushNode, List.length_modify, List.length_append, List.length_singleton]

/-- A new node is written behind all others, and its number behind the other children of its
parent. -/
theorem pushNode_eq (h : parent < nodes.length) : pushNode nodes parent s token =
    nodes.modify parent (Node.addChildren [nodes.length]) ++
      [⟨some s, some parent, token, []⟩] :=
  modify_append_left h

/-- What was there stays, but for one child more of the parent. -/
theorem getElem?_pushNode_of_lt (hparent : parent < nodes.length) (h : id < nodes.length) :
    (pushNode nodes parent s token)[id]? =
      nodes[id]?.map fun node => if parent = id then node.addChildren [nodes.length] else node := by
  rw [pushNode_eq hparent, List.getElem?_append_left (by rwa [List.length_modify]),
    List.getElem?_modify]
  split <;> rfl

/-- The new node has its symbol, its parent and its token from the start, and no children yet. -/
theorem getElem?_pushNode_length (hparent : parent < nodes.length) :
    (pushNode nodes parent s token)[nodes.length]? = some ⟨some s, some parent, token, []⟩ := by
  rw [pushNode_eq hparent, List.getElem?_append_right (by simp),
    List.length_modify, Nat.sub_self]
  rfl

/-- **A node was there before, perhaps with one child less, or it is the new one.** -/
theorem getElem?_pushNode_eq_some (hparent : parent < nodes.length) :
    (pushNode nodes parent s token)[id]? = some node →
      (∃ old, nodes[id]? = some old ∧
        node = if parent = id then old.addChildren [nodes.length] else old) ∨
      id = nodes.length ∧ node = ⟨some s, some parent, token, []⟩ := by
  intro h
  have hlt : id < nodes.length + 1 := length_pushNode ▸ (List.getElem?_eq_some_iff.mp h).1
  rcases Nat.lt_or_eq_of_le (Nat.le_of_lt_succ hlt) with hid | rfl
  · rw [getElem?_pushNode_of_lt hparent hid] at h
    obtain ⟨old, hold, rfl⟩ := Option.map_eq_some_iff.mp h
    exact Or.inl ⟨old, hold, rfl⟩
  · rw [getElem?_pushNode_length hparent] at h
    exact Or.inr ⟨rfl, (Option.some.inj h).symm⟩

theorem parent?_eq_none (h : nodes.length ≤ id) : parent? nodes id = none := by
  rw [parent?, List.getElem?_eq_none h]
  rfl

/-- A node keeps its parent for good; only lists of children change. -/
theorem parent?_pushNode_of_lt (hparent : parent < nodes.length) (h : id < nodes.length) :
    parent? (pushNode nodes parent s token) id = parent? nodes id := by
  rw [parent?, getElem?_pushNode_of_lt hparent h, parent?]
  cases nodes[id]? with
  | none => rfl
  | some node =>
    rw [Option.map_some, Option.bind_some, Option.bind_some]
    split <;> rfl

/-- The new node is the only new child. -/
theorem parent?_pushNode_eq_some_iff (hparent : parent < nodes.length) :
    parent? (pushNode nodes parent s token) child = some id ↔
      parent? nodes child = some id ∨ child = nodes.length ∧ parent = id := by
  rcases Nat.lt_trichotomy child nodes.length with hlt | rfl | hlt
  · simp [parent?_pushNode_of_lt hparent hlt, Nat.ne_of_lt hlt]
  · have hnew : parent? (pushNode nodes parent s token) nodes.length = some parent := by
      rw [parent?, getElem?_pushNode_length hparent]
      rfl
    simp [hnew, parent?_eq_none (Nat.le_refl _)]
  · have hle : (pushNode nodes parent s token).length ≤ child := by
      rw [length_pushNode]
      exact hlt
    simp [parent?_eq_none hle, parent?_eq_none (Nat.le_of_lt hlt), Nat.ne_of_gt hlt]

/-! ## The list as a tree -/

/-- The nodes are a tree, and each number is larger than that of its parent. -/
structure IsTree (nodes : List Node) : Prop where
  /-- The first node has no symbol and no parent. -/
  exists_root : ∃ children, nodes[0]? = some ⟨none, none, none, children⟩
  /-- All others have a symbol -/
  exists_symbol : ∀ {id : Nat} {node : Node}, nodes[id]? = some node → 0 < id →
    ∃ s, node.symbol = some s
  /-- and a parent before them. -/
  exists_parent : ∀ {id : Nat}, id < nodes.length → 0 < id →
    ∃ parent < id, parent? nodes id = some parent
  /-- The children of a node are those that have it as their parent. -/
  mem_children_iff : ∀ {id child : Nat} {node : Node}, nodes[id]? = some node →
    (child ∈ node.children ↔ parent? nodes child = some id)
  /-- They are listed once, in the order of their numbers. -/
  ascending : ∀ {id : Nat} {node : Node}, nodes[id]? = some node →
    node.children.Pairwise (· < ·)

/-- The root alone is a tree of nodes. -/
theorem isTree_rootNodes : IsTree rootNodes := by
  have hroot {id : Nat} {node : Node} (h : rootNodes[id]? = some node) :
      id = 0 ∧ node = ⟨none, none, none, []⟩ := by
    obtain ⟨hlt, rfl⟩ := List.getElem?_eq_some_iff.mp h
    obtain rfl := Nat.lt_one_iff.mp hlt
    exact ⟨rfl, rfl⟩
  constructor
  case exists_root => exact ⟨[], rfl⟩
  case exists_symbol => exact fun h hpos => absurd (hroot h).1 (Nat.ne_of_gt hpos)
  case exists_parent =>
    exact fun hlt hpos => absurd (Nat.lt_one_iff.mp hlt) (Nat.ne_of_gt hpos)
  case mem_children_iff =>
    intro id child node h
    obtain ⟨rfl, rfl⟩ := hroot h
    cases child with
    | zero => simp [parent?, rootNodes]
    | succ child => simp [parent?, rootNodes]
  case ascending =>
    intro id node h
    obtain ⟨-, rfl⟩ := hroot h
    exact List.Pairwise.nil

/-- Children have numbers of nodes that exist, since each of them names its parent. -/
theorem IsTree.lt_length_of_mem (h : IsTree nodes) (hnode : nodes[id]? = some node)
    (hchild : child ∈ node.children) : child < nodes.length := by
  by_contra hle
  have hparent := (h.mem_children_iff hnode).mp hchild
  rw [parent?_eq_none (Nat.le_of_not_lt hle)] at hparent
  cases hparent

/-- The number of a parent is a number of the list. -/
theorem IsTree.parent_lt (h : IsTree nodes) (hparent : parent? nodes id = some parent) :
    parent < nodes.length := by
  have hlt : id < nodes.length := by
    by_contra hle
    rw [parent?_eq_none (Nat.le_of_not_lt hle)] at hparent
    cases hparent
  rcases Nat.eq_zero_or_pos id with rfl | hpos
  · obtain ⟨children, hroot⟩ := h.exists_root
    rw [parent?, hroot] at hparent
    cases hparent
  · obtain ⟨other, hother, heq⟩ := h.exists_parent hlt hpos
    obtain rfl := Option.some.inj (hparent.symm.trans heq)
    exact Nat.lt_trans hother hlt

/-- **With a new node the nodes are still a tree.** -/
theorem IsTree.push (h : IsTree nodes) (hparent : parent < nodes.length) (s : SymbolId)
    (token : Option Token) : IsTree (pushNode nodes parent s token) := by
  have hpos : 0 < nodes.length := Nat.zero_lt_of_lt hparent
  constructor
  case exists_root =>
    obtain ⟨children, hroot⟩ := h.exists_root
    refine ⟨if parent = 0 then children ++ [nodes.length] else children, ?_⟩
    rw [getElem?_pushNode_of_lt hparent hpos, hroot, Option.map_some]
    split <;> rfl
  case exists_symbol =>
    intro id node hnode hid
    rcases getElem?_pushNode_eq_some hparent hnode with ⟨old, hold, rfl⟩ | ⟨-, rfl⟩
    · obtain ⟨t, ht⟩ := h.exists_symbol hold hid
      refine ⟨t, ?_⟩
      split <;> exact ht
    · exact ⟨s, rfl⟩
  case exists_parent =>
    intro id hlt hid
    rw [length_pushNode] at hlt
    rcases Nat.lt_or_eq_of_le (Nat.le_of_lt_succ hlt) with hlt | rfl
    · rw [parent?_pushNode_of_lt hparent hlt]
      exact h.exists_parent hlt hid
    · exact ⟨parent, hparent, (parent?_pushNode_eq_some_iff hparent).mpr (Or.inr ⟨rfl, rfl⟩)⟩
  case mem_children_iff =>
    intro id child node hnode
    rw [parent?_pushNode_eq_some_iff hparent]
    rcases getElem?_pushNode_eq_some hparent hnode with ⟨old, hold, rfl⟩ | ⟨rfl, rfl⟩
    · rw [← h.mem_children_iff hold]
      split
      · next heq => simp [Node.addChildren, heq]
      · next hne => simp [hne]
    · simp only [List.not_mem_nil, false_iff, not_or, not_and]
      exact ⟨fun hsome => absurd (h.parent_lt hsome) (Nat.lt_irrefl _),
        fun _ => Nat.ne_of_lt hparent⟩
  case ascending =>
    intro id node hnode
    rcases getElem?_pushNode_eq_some hparent hnode with ⟨old, hold, rfl⟩ | ⟨-, rfl⟩
    · split
      · refine List.pairwise_append.mpr ⟨h.ascending hold, List.pairwise_singleton _ _, ?_⟩
        intro a ha b hb
        rw [List.mem_singleton.mp hb]
        exact h.lt_length_of_mem hold ha
      · exact h.ascending hold
    · exact List.Pairwise.nil

/-! ## What a step does to the nodes -/

namespace Arena

variable {g : Grammar} {table : PredictiveTable} {a a' : Arena} {name : String} {x : SymbolId}
  {tokens : TokenStream}

/-- What one step can do to the nodes and to the place where the parser is. -/
inductive Moves (a a' : Arena) : Prop
  /-- The parser stays where it is, or goes back to the parent. -/
  | keep (hnodes : a'.nodes = a.nodes)
    (hcurrent : a'.current = a.current ∨ parent? a.nodes a.current = some a'.current)
  /-- There is a node more where the parser is; it stays there, or goes to the new node. -/
  | grow (s : SymbolId) (token : Option Token)
    (hnodes : a'.nodes = pushNode a.nodes a.current s token)
    (hcurrent : a'.current = a.current ∨ a'.current = a.nodes.length)

/-- The stack does not matter. -/
theorem Moves.of_pop {stack : List StackEntry} (h : Moves { a with stack := stack } a') :
    Moves a a' := by
  cases h with
  | keep hnodes hcurrent => exact .keep hnodes hcurrent
  | grow s token hnodes hcurrent => exact .grow s token hnodes hcurrent

/-- Opening a branch makes one node and goes down to it. -/
theorem moves_of_expand (h : a.expand g table s name = .next a') : Moves a a' := by
  rw [expand] at h
  split at h
  · cases h
  split at h
  · cases h
  · cases h
    exact .grow s none rfl (Or.inr rfl)

/-- A literal makes a leaf and stays where it is, save for the end mark that is accepted, which
makes none. -/
theorem moves_of_consume (h : a.consume g s = .next a') : Moves a a' := by
  rw [consume] at h
  split at h
  · dsimp only at h
    split at h
    · cases h
      exact .keep rfl (Or.inl rfl)
    · cases h
      exact .grow s (some a.tokens.peek) rfl (Or.inl rfl)
  · cases h

/-- Closing a branch goes up to the parent and makes no node. -/
theorem moves_of_ascend (h : a.ascend = .next a') : Moves a a' := by
  rw [ascend] at h
  split at h
  · cases h
  · next parent hparent =>
    cases h
    exact .keep rfl (Or.inr hparent)

/-- **A step does one of these.** -/
theorem step_moves (h : a.step g table = .next a') : Moves a a' := by
  rw [step] at h
  split at h
  · cases h
  next entry stack _ =>
  suffices hpopped : Moves { a with stack := stack } a' from hpopped.of_pop
  dsimp only at h
  split at h
  · exact moves_of_ascend h
  · cases h
    exact .grow epsilonId none rfl (Or.inl rfl)
  · split at h
    · cases h
    · cases h
      exact .grow epsilonId none rfl (Or.inl rfl)
    · exact moves_of_expand h
    · exact moves_of_consume h

/-- The nodes are a tree, and the parser is at one of them. -/
structure Placed (a : Arena) : Prop where
  isTree : IsTree a.nodes
  current_lt : a.current < a.nodes.length

/-- A parse starts at the root. -/
theorem placed_initial (x : SymbolId) (tokens : TokenStream) : (initial x tokens).Placed :=
  ⟨isTree_rootNodes, Nat.zero_lt_one⟩

/-- **The current node is in the tree at every step**, and the nodes are a tree. -/
theorem Placed.step (ha : a.Placed) (h : a.step g table = .next a') : a'.Placed := by
  obtain ⟨htree, hlt⟩ := ha
  obtain ⟨hnodes, hcurrent⟩ | ⟨s, token, hnodes, hcurrent⟩ := step_moves h
  · refine ⟨hnodes ▸ htree, ?_⟩
    rw [hnodes]
    rcases hcurrent with heq | hparent
    · exact heq ▸ hlt
    · exact htree.parent_lt hparent
  · refine ⟨hnodes ▸ htree.push hlt s token, ?_⟩
    rw [hnodes, length_pushNode]
    rcases hcurrent with heq | heq
    · exact heq ▸ Nat.lt_succ_of_lt hlt
    · exact heq ▸ Nat.lt_succ_self _

/-- The states that the parser comes to. -/
def Reaches (g : Grammar) (table : PredictiveTable) : Arena → Arena → Prop :=
  Relation.ReflTransGen fun a a' => a.step g table = .next a'

/-- **At every step the nodes are a tree.** -/
theorem Reaches.placed (h : Reaches g table (initial x tokens) a) : a.Placed := by
  induction h with
  | refl => exact placed_initial x tokens
  | tail _ hstep ih => exact ih.step hstep

end Arena

/-! ## Trees drawn as nodes -/

mutual

/-- The nodes with those of a tree, below `parent`. -/
def Tree.draw (nodes : List Node) (parent : Nat) : Tree → List Node
  | .epsilon => pushNode nodes parent epsilonId none
  | .literal symbol token => pushNode nodes parent symbol (some token)
  | .branch symbol children =>
    drawForest (pushNode nodes parent symbol none) nodes.length children

/-- The nodes with those of several trees, below `parent`. -/
def drawForest (nodes : List Node) (parent : Nat) : List Tree → List Node
  | [] => nodes
  | t :: ts => drawForest (t.draw nodes parent) parent ts

end

variable {t : Tree} {ts us : List Tree}

/-- Trees are drawn one after the other. -/
theorem drawForest_append :
    drawForest nodes parent (ts ++ us) = drawForest (drawForest nodes parent ts) parent us := by
  induction ts generalizing nodes with
  | nil => rfl
  | cons t ts ih => exact ih

mutual

/-- **What is drawn is the numbered nodes**, with the first of them as a child of the parent. -/
theorem Tree.draw_eq {nodes : List Node} {parent : Nat} : ∀ (t : Tree), parent < nodes.length →
    t.draw nodes parent =
      nodes.modify parent (Node.addChildren [nodes.length]) ++ t.nodes parent nodes.length
  | .epsilon, h => pushNode_eq h
  | .literal .., h => pushNode_eq h
  | .branch symbol children, h => by
    have hlength : nodes.length < (pushNode nodes parent symbol none).length := by simp
    rw [Tree.draw, drawForest_eq children hlength, length_pushNode, pushNode_eq h]
    rw [modify_append_of_length_eq (List.length_modify _ _ _), Tree.nodes, List.append_assoc]
    rfl

/-- **So it is for several trees.** -/
theorem drawForest_eq {nodes : List Node} {parent : Nat} : ∀ (ts : List Tree),
    parent < nodes.length → drawForest nodes parent ts =
      nodes.modify parent (Node.addChildren (childIds nodes.length ts)) ++
        forestNodes parent nodes.length ts
  | [], _ => by
    rw [drawForest, childIds, forestNodes, Node.addChildren_nil, List.append_nil]
    exact (List.modify_id parent nodes).symm
  | t :: ts, h => by
    have hdrawn := Tree.draw_eq t h
    have hlength : (t.draw nodes parent).length = nodes.length + t.size := by
      rw [hdrawn, List.length_append, List.length_modify, Tree.length_nodes]
    have hparent : parent < (nodes.modify parent (Node.addChildren [nodes.length])).length := by
      rwa [List.length_modify]
    rw [drawForest, drawForest_eq ts (hlength ▸ Nat.lt_add_right _ h), hlength, hdrawn,
      modify_append_left hparent, List.modify_modify_eq, Node.addChildren_addChildren, childIds,
      forestNodes, List.append_assoc, List.singleton_append]

end

theorem length_le_drawForest (h : parent < nodes.length) :
    nodes.length ≤ (drawForest nodes parent ts).length := by
  rw [drawForest_eq ts h, List.length_append, List.length_modify]
  exact Nat.le_add_right _ _

/-- Drawing leaves the parents of the nodes that are there. -/
theorem parent?_drawForest_of_lt (h : parent < nodes.length) (hid : id < nodes.length) :
    parent? (drawForest nodes parent ts) id = parent? nodes id := by
  rw [parent?, drawForest_eq ts h, List.getElem?_append_left (by rwa [List.length_modify]),
    List.getElem?_modify, parent?]
  cases nodes[id]? with
  | none => rfl
  | some node =>
    rw [Option.map_eq_map, Option.map_some, Option.bind_some, Option.bind_some]
    split <;> rfl

/-- The nodes of a parse tree are those drawn below the root. -/
theorem ParseTree.nodes_eq_drawForest (trees : List Tree) :
    ParseTree.nodes ⟨trees⟩ = drawForest rootNodes 0 trees := by
  rw [drawForest_eq trees Nat.zero_lt_one]
  rfl

/-! ## The two parsers -/

/-- The nodes so far and the number of the innermost branch, with one branch more. -/
def OpenBranch.draw (b : OpenBranch) (below : List Node × Nat) : List Node × Nat :=
  (drawForest (pushNode below.1 below.2 b.symbol none) below.1.length b.children, below.1.length)

/-- The nodes of the finished trees and the open branches, and the number of the innermost one. -/
def drawPath (trees : List Tree) (path : List OpenBranch) : List Node × Nat :=
  path.foldr OpenBranch.draw (drawForest rootNodes 0 trees, 0)

section Path

variable {trees : List Tree} {b : OpenBranch} {path outer : List OpenBranch}

theorem drawPath_cons : drawPath trees (b :: outer) = b.draw (drawPath trees outer) :=
  rfl

/-- The innermost open branch is among the nodes that are drawn. -/
theorem drawPath_lt : (drawPath trees path).2 < (drawPath trees path).1.length := by
  induction path with
  | nil =>
    have hle : rootNodes.length ≤ (drawForest rootNodes 0 trees).length :=
      length_le_drawForest Nat.zero_lt_one
    exact Nat.lt_of_lt_of_le Nat.zero_lt_one hle
  | cons b outer ih =>
    have hlt : (drawPath trees outer).1.length <
        (pushNode (drawPath trees outer).1 (drawPath trees outer).2 b.symbol none).length := by
      simp
    exact Nat.lt_of_lt_of_le hlt (length_le_drawForest hlt)

/-- The parser is at the root when no branch is open. -/
theorem drawPath_eq_zero_iff : (drawPath trees path).2 = 0 ↔ path = [] := by
  cases path with
  | nil => simp [drawPath]
  | cons b outer =>
    have hpos : 0 < (drawPath trees outer).1.length := Nat.zero_lt_of_lt drawPath_lt
    simp [drawPath_cons, OpenBranch.draw, Nat.ne_of_gt hpos]

theorem parent?_drawPath_nil : parent? (drawPath trees []).1 (drawPath trees []).2 = none :=
  parent?_drawForest_of_lt Nat.zero_lt_one Nat.zero_lt_one

/-- The parent of the innermost branch is the branch around it. -/
theorem parent?_drawPath_cons : parent? (drawPath trees (b :: outer)).1
    (drawPath trees (b :: outer)).2 = some (drawPath trees outer).2 := by
  have hlt : (drawPath trees outer).2 < (drawPath trees outer).1.length := drawPath_lt
  rw [drawPath_cons, OpenBranch.draw, parent?_drawForest_of_lt (by simp) (by simp),
    parent?_pushNode_eq_some_iff hlt]
  exact Or.inr ⟨rfl, rfl⟩

end Path

/-- The state with its tree as a list of nodes. -/
def Config.arena (c : Config) : Arena :=
  ⟨c.stack, (drawPath c.trees c.path).1, (drawPath c.trees c.path).2, c.accepted, c.tokens⟩

/-- The outcome with the nodes of its tree. -/
def Outcome.arena (o : Outcome) : Arena.Outcome :=
  ⟨o.result.map ParseTree.nodes, o.tokens⟩

/-- What a step leads to, with its tree as a list of nodes. -/
def Progress.arena : Progress → Arena.Progress
  | next c => .next c.arena
  | stop o => .stop o.arena

namespace Config

variable {g : Grammar} {table : PredictiveTable} {c : Config} {name : String}

/-- A finished tree is drawn below the innermost branch. -/
theorem arena_attach : (c.attach t).arena =
    { c.arena with nodes := t.draw c.arena.nodes c.arena.current } := by
  obtain ⟨stack, path, trees, accepted, tokens⟩ := c
  cases path with
  | nil => simp [arena, attach, drawPath, drawForest_append, drawForest]
  | cons b outer =>
    simp [arena, attach, drawPath_cons, OpenBranch.draw, drawForest_append, drawForest]

/-- Closing a branch: the tree made of its children has been drawn already, so only the current node
changes. -/
theorem arena_ascend : c.arena.ascend = c.ascend.arena := by
  obtain ⟨stack, path, trees, accepted, tokens⟩ := c
  cases path with
  | nil =>
    rw [Arena.ascend, arena, parent?_drawPath_nil]
    rfl
  | cons b outer =>
    rw [Arena.ascend, arena, parent?_drawPath_cons, ascend, Progress.arena, arena_attach]
    rfl

/-- Opening a branch: its node is drawn when it is opened and not when it is closed. -/
theorem arena_expand : c.arena.expand g table s name = (c.expand g table s name).arena := by
  rw [Arena.expand, expand, show c.arena.tokens = c.tokens from rfl]
  cases (c.tokens.lookahead? g).bind (table.get? s) with
  | none => rfl
  | some ordinal =>
    dsimp only
    cases (g.production? ordinal).filter fun p => p.left = s with
    | none => rfl
    | some p => rfl

/-- A literal: its leaf joins the current node. -/
theorem arena_consume : c.arena.consume g s = (c.consume g s).arena := by
  have hroot : decide (c.arena.current = 0) = c.path.isEmpty := by
    rw [Bool.eq_iff_iff, decide_eq_true_iff, List.isEmpty_iff]
    exact drawPath_eq_zero_iff
  rw [Arena.consume, consume, hroot, show c.arena.tokens = c.tokens from rfl]
  split
  · dsimp only
    split
    · rfl
    · rw [Progress.arena, arena_attach]
      rfl
  · rfl

theorem startId?_drawPath_nil {trees : List Tree} :
    (startId? (drawPath trees []).1).isNone = trees.isEmpty := by
  rw [drawPath, List.foldr_nil, ← ParseTree.nodes_eq_drawForest]
  cases trees <;> rfl

/-- What stops a run looks at the same things on both sides: whether a branch is open, whether there
is a tree, and the stream. -/
theorem arena_finish : c.arena.finish g = (c.finish g).arena := by
  have hbalanced : (decide (c.arena.current ≠ 0) || (startId? c.arena.nodes).isNone) =
      (!c.path.isEmpty || c.trees.isEmpty) := by
    obtain ⟨stack, path, trees, accepted, tokens⟩ := c
    cases path with
    | nil => exact congrArg (false || ·) startId?_drawPath_nil
    | cons b outer =>
      have hcurrent : (drawPath trees (b :: outer)).2 ≠ 0 := fun hzero =>
        List.cons_ne_nil _ _ (drawPath_eq_zero_iff.mp hzero)
      simp [arena, hcurrent]
  rw [Arena.finish, Outcome.arena, finish, hbalanced, show c.arena.accepted = c.accepted from rfl,
    show c.arena.tokens = c.tokens from rfl]
  refine congrArg (Arena.Outcome.mk · c.tokens) ?_
  by_cases haccepted : !c.accepted
  · rw [if_pos haccepted, if_pos haccepted]
    rfl
  rw [if_neg haccepted, if_neg haccepted]
  by_cases hopen : !c.path.isEmpty || c.trees.isEmpty
  · rw [if_pos hopen, if_pos hopen]
    rfl
  rw [if_neg hopen, if_neg hopen]
  by_cases hleft : !c.tokens.isExhausted
  · rw [if_pos hleft, if_pos hleft]
    rfl
  rw [if_neg hleft, if_neg hleft]
  -- No branch is open, so the nodes are those of the finished trees.
  have hclosed : c.path.isEmpty := by
    simpa using (not_or.mp (mt (Bool.or_eq_true _ _).mpr hopen)).1
  rw [arena, List.isEmpty_iff.mp hclosed]
  exact congrArg Except.ok (ParseTree.nodes_eq_drawForest c.trees).symm

/-- **A step does the same to the tree and to the nodes.** -/
theorem arena_step : c.arena.step g table = (c.step g table).arena := by
  obtain ⟨stack, path, trees, accepted, tokens⟩ := c
  cases stack with
  | nil => exact congrArg Arena.Progress.stop arena_finish
  | cons entry stack =>
    let popped : Config := ⟨stack, path, trees, accepted, tokens⟩
    have hepsilon : popped.arena.push epsilonId none = (popped.attach .epsilon).arena :=
      (arena_attach (c := popped) (t := .epsilon)).symm
    cases entry with
    | ascend => exact arena_ascend (c := popped)
    | epsilon => exact congrArg Arena.Progress.next hepsilon
    | symbol s =>
      rw [Arena.step, step]
      dsimp only [arena]
      cases g.symbol? s with
      | none => rfl
      | some symbol =>
        cases symbol with
        | epsilon => exact congrArg Arena.Progress.next hepsilon
        | nonTerminal name alternatives => exact arena_expand (c := popped)
        | endMark => exact arena_consume (c := popped)
        | terminal name => exact arena_consume (c := popped)

end Config

/-- **Both parsers run alike.** -/
theorem run_arena {g : Grammar} {table : PredictiveTable} {fuel : Nat} {c : Config} :
    Arena.run g table fuel c.arena = (run g table fuel c).map Outcome.arena := by
  induction fuel generalizing c with
  | zero => rfl
  | succ fuel ih =>
    rw [Arena.run, run, Config.arena_step]
    cases c.step g table with
    | next c => exact ih
    | stop o => rfl

end GrammarTables
