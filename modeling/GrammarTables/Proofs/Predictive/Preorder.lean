import GrammarTables.Proofs.Predictive.Arena
import GrammarTables.Proofs.Predictive.Soundness

/-!
# Proofs/Predictive/Preorder — the nodes of a parse tree are numbered in preorder

`Walk` visits a node and what is below it from the left, each node before its children, and follows
nothing but the lists of children.  Two inputs.

**A walk through the numbered nodes of a tree counts** (`Tree.walk_nodes`), by induction on the tree
wherever it stands in the list.

**The walk from a node is a stretch of any walk that meets it** (`Walk.exists_infix`), and a stretch
of consecutive numbers is one as well, so what is below a node has the numbers that follow.
-/

namespace GrammarTables

variable {g : Grammar} {nodes : List Node} {id j : Nat} {ids : List Nat}

/-! ## Walks -/

mutual

/-- The numbers of a node and of all nodes below it, in the order in which they are met. -/
inductive Walk (nodes : List Node) : Nat → List Nat → Prop
  | node {id : Nat} {node : Node} {ids : List Nat} (h : nodes[id]? = some node)
    (hs : ForestWalk nodes node.children ids) : Walk nodes id (id :: ids)

/-- The walks from several nodes, one after the other. -/
inductive ForestWalk (nodes : List Node) : List Nat → List Nat → Prop
  | nil : ForestWalk nodes [] []
  | cons {id : Nat} {roots ids ids' : List Nat} (h : Walk nodes id ids)
    (hs : ForestWalk nodes roots ids') : ForestWalk nodes (id :: roots) (ids ++ ids')

end

theorem Walk.exists_cons (h : Walk nodes id ids) : ∃ below, ids = id :: below := by
  cases h with
  | node => exact ⟨_, rfl⟩

mutual

/-- **The walk from a node that is met is a stretch of the walk.** -/
theorem Walk.exists_infix {nodes : List Node} {id j : Nat} {ids : List Nat} :
    Walk nodes id ids → j ∈ ids → ∃ below, Walk nodes j below ∧ below <:+: ids
  | .node h hs, hj => by
    rcases List.mem_cons.mp hj with rfl | hj
    · exact ⟨_, .node h hs, List.infix_rfl⟩
    · obtain ⟨below, hbelow, hinfix⟩ := hs.exists_infix hj
      exact ⟨below, hbelow, List.infix_cons hinfix⟩

theorem ForestWalk.exists_infix {nodes : List Node} {j : Nat} {roots ids : List Nat} :
    ForestWalk nodes roots ids → j ∈ ids → ∃ below, Walk nodes j below ∧ below <:+: ids
  | .cons h hs, hj => by
    rcases List.mem_append.mp hj with hj | hj
    · obtain ⟨below, hbelow, hinfix⟩ := h.exists_infix hj
      exact ⟨below, hbelow, hinfix.trans (List.infix_append' [] _ _)⟩
    · obtain ⟨below, hbelow, hinfix⟩ := hs.exists_infix hj
      exact ⟨below, hbelow, hinfix.trans (List.suffix_append _ _).isInfix⟩

end

/-- A stretch of consecutive numbers is consecutive. -/
theorem eq_range'_of_infix {n : Nat} {below : List Nat} (h : j :: below <:+: List.range n) :
    j :: below = List.range' j (below.length + 1) := by
  obtain ⟨before, after, heq⟩ := h
  rw [List.append_assoc, List.range_eq_range'] at heq
  obtain ⟨k, -, -, htail⟩ := List.range'_eq_append_iff.mp heq.symm
  obtain ⟨size, -, hbelow, -⟩ := List.range'_eq_append_iff.mp htail.symm
  have hlength : below.length + 1 = size := by
    rw [← List.length_cons (a := j), hbelow, List.length_range']
  subst hlength
  obtain ⟨rfl, -⟩ := List.cons.inj hbelow
  exact hbelow

/-- The nodes are numbered from left to right, each before its children. -/
structure IsPreorder (nodes : List Node) : Prop where
  walk : Walk nodes 0 (List.range nodes.length)
  /-- What is below a node has the numbers that follow. -/
  exists_size : ∀ id < nodes.length, ∃ size, Walk nodes id (List.range' id size)

/-- A walk from the root that counts makes a preorder. -/
theorem Walk.isPreorder (h : Walk nodes 0 (List.range nodes.length)) : IsPreorder nodes := by
  refine ⟨h, fun id hid => ?_⟩
  obtain ⟨below, hbelow, hinfix⟩ := h.exists_infix (List.mem_range.mpr hid)
  obtain ⟨rest, rfl⟩ := hbelow.exists_cons
  exact ⟨rest.length + 1, eq_range'_of_infix hinfix ▸ hbelow⟩

/-! ## Numbered trees -/

theorem getElem?_of_prefix_drop {α : Type} {x : α} {xs zs : List α} {i : Nat}
    (h : x :: xs <+: zs.drop i) : zs[i]? = some x := by
  obtain ⟨rest, heq⟩ := h
  have hhead : (zs.drop i)[0]? = some x := by
    rw [← heq]
    rfl
  rwa [List.getElem?_drop] at hhead

theorem prefix_drop_of_append {α : Type} {xs ys zs : List α} {i : Nat}
    (h : xs ++ ys <+: zs.drop i) : ys <+: zs.drop (i + xs.length) := by
  obtain ⟨rest, heq⟩ := h
  refine ⟨rest, ?_⟩
  rw [← List.drop_drop, ← heq, List.append_assoc, List.drop_left]

mutual

/-- **A walk through the nodes of a tree counts.** -/
theorem Tree.walk_nodes {nodes : List Node} {parent id : Nat} : ∀ t : Tree,
    t.nodes parent id <+: nodes.drop id → Walk nodes id (List.range' id t.size)
  | .epsilon, h => .node (getElem?_of_prefix_drop h) .nil
  | .literal .., h => .node (getElem?_of_prefix_drop h) .nil
  | .branch symbol children, h => by
    have hsplit : [⟨some symbol, some parent, none, childIds (id + 1) children⟩] ++
      forestNodes id (id + 1) children <+: nodes.drop id := h
    exact .node (getElem?_of_prefix_drop h)
      (forestWalk_nodes children (prefix_drop_of_append hsplit))

/-- So does a walk through those of several trees. -/
theorem forestWalk_nodes {nodes : List Node} {parent id : Nat} : ∀ ts : List Tree,
    forestNodes parent id ts <+: nodes.drop id →
      ForestWalk nodes (childIds id ts) (List.range' id (Tree.forestSize ts))
  | [], _ => .nil
  | t :: ts, h => by
    rw [forestNodes] at h
    have hrest := prefix_drop_of_append h
    rw [Tree.length_nodes] at hrest
    rw [childIds, Tree.forestSize, ← List.range'_append_1]
    exact .cons (t.walk_nodes ((List.prefix_append _ _).trans h)) (forestWalk_nodes ts hrest)

end

/-- **The nodes of a parse tree are in preorder.** -/
theorem ParseTree.isPreorder_nodes (tree : ParseTree) : IsPreorder tree.nodes := by
  refine Walk.isPreorder ?_
  rw [ParseTree.length_nodes, List.range_eq_range']
  exact .node rfl (forestWalk_nodes tree.trees List.prefix_rfl)

/-! ## Trees that follow the rules -/

section FollowsRules

variable {node : Node} {s : SymbolId}

mutual

/-- **A node for a non-terminal has a child.** -/
theorem Tree.children_ne_nil_of_mem_nodes {parent id : Nat} (hg : g.WellFormed)
    (hsymbol : node.symbol = some s) (hs : g.isNonTerminal s) : ∀ t : Tree, t.FollowsRules g →
      node ∈ t.nodes parent id → node.children ≠ []
  | .epsilon, _, hnode => by
    obtain rfl := List.mem_singleton.mp hnode
    exact absurd (Option.some.inj hsymbol).symm (hg.ne_epsilon_of_isNonTerminal hs)
  | .literal symbol token, h, hnode => by
    obtain rfl := List.mem_singleton.mp hnode
    obtain rfl : symbol = s := Option.some.inj hsymbol
    have hnot := Grammar.isNonTerminal_eq_false_of_isLiteral h.1
    exact absurd (hnot.symm.trans hs) Bool.false_ne_true
  | .branch symbol [], h, _ => absurd rfl (h.children_ne_nil hg)
  | .branch symbol (t :: ts), h, hnode => by
    rcases List.mem_cons.mp hnode with rfl | hnode
    · exact List.cons_ne_nil _ _
    · exact children_ne_nil_of_mem_forestNodes hg hsymbol hs (t :: ts) h.2 hnode

theorem children_ne_nil_of_mem_forestNodes {parent id : Nat} (hg : g.WellFormed)
    (hsymbol : node.symbol = some s) (hs : g.isNonTerminal s) : ∀ ts : List Tree,
      Tree.ForestFollowsRules g ts → node ∈ forestNodes parent id ts → node.children ≠ []
  | [], _, hnode => absurd hnode List.not_mem_nil
  | t :: ts, h, hnode => by
    rcases List.mem_append.mp hnode with hnode | hnode
    · exact t.children_ne_nil_of_mem_nodes hg hsymbol hs h.1 hnode
    · exact children_ne_nil_of_mem_forestNodes hg hsymbol hs ts h.2 hnode

end

end FollowsRules

/-! ## Parses -/

section Parse

variable {table : PredictiveTable} {x : SymbolId} {tokens : TokenStream} {c : Config}
  {o : Outcome}

/-- The nodes of the tree, if there is one, are those of a state that the parser comes to. -/
theorem Config.isTree_of_stop (hg : g.WellFormed) (hc : Arena.Reaches g table (.initial x tokens)
    c.arena) (h : c.step g table = .stop o) (tree : ParseTree) (hresult : o.result = .ok tree) :
    IsTree tree.nodes := by
  have htree := hc.placed.isTree
  have heffect := step_effect hg table c
  rw [h] at heffect
  clear h
  cases heffect with
  | finish path trees accepted rest =>
    obtain ⟨-, rfl, -, -, rfl⟩ := finish_eq_ok hresult
    rwa [ParseTree.nodes_eq_drawForest]
  | _ => exact nomatch hresult

theorem Stops.isTree (hg : g.WellFormed) (h : Stops g table (.initial x tokens) o) :
    ∀ tree, o.result = .ok tree → IsTree tree.nodes := by
  obtain ⟨fuel, hrun⟩ := h
  have hstart : Arena.Reaches g table (.initial x tokens) (Config.initial x tokens).arena := .refl
  refine run_induction (motive := fun c => Arena.Reaches g table (.initial x tokens) c.arena)
    (fun c c' hc hstep => hc.tail ?_) (fun c o hc hstop => Config.isTree_of_stop hg hc hstop)
    hstart hrun
  rw [Config.arena_step, hstep]
  rfl

end Parse

/-- **The list of nodes is a tree numbered in preorder.**  The parser with its nodes in one list
does what the parser with open branches does.  At every step its nodes are a tree in which parents
come before their children; in a tree that is returned they are in preorder as well, and every node
of a non-terminal has a child. -/
theorem Grammar.Built.nodes_preorder (hg : g.Built) (table : PredictiveTable) (x : SymbolId)
    (tokens : TokenStream) :
    (∀ fuel, Arena.run g table fuel (.initial x tokens) =
      (run g table fuel (.initial x tokens)).map Outcome.arena) ∧
    (∀ a, Arena.Reaches g table (.initial x tokens) a → a.Placed) ∧
    ∀ tree rest, Stops g table (.initial x tokens) ⟨.ok tree, rest⟩ →
      IsTree tree.nodes ∧ IsPreorder tree.nodes ∧
        ∀ node ∈ tree.nodes, ∀ s, node.symbol = some s → g.isNonTerminal s →
          node.children ≠ [] := by
  have hwell := hg.wellFormed
  refine ⟨fun fuel => run_arena (c := .initial x tokens), fun a ha => ha.placed, ?_⟩
  intro tree rest h
  refine ⟨h.isTree hwell tree rfl, tree.isPreorder_nodes, fun node hnode s hsymbol hs => ?_⟩
  obtain ⟨trees⟩ := tree
  obtain ⟨t, rfl, -, hfollows, -⟩ := h.sound hwell _ rfl
  rcases List.mem_cons.mp hnode with rfl | hnode
  · exact nomatch hsymbol
  · exact children_ne_nil_of_mem_forestNodes hwell hsymbol hs [t]
      (Tree.forestFollowsRules_singleton.mpr hfollows) hnode

theorem Grammar.nodes_preorder_nested :
    let tokens := TokenStream.ofList [⟨"a", some "x"⟩, ⟨"b", none⟩]
    let tree : ParseTree :=
      ⟨[.branch 2 [.literal 3 ⟨"a", some "x"⟩, .branch 2 [.epsilon], .literal 4 ⟨"b", none⟩]]⟩
    Stops nested nestedTable (.initial 2 tokens) ⟨.ok tree, ⟨2, []⟩⟩ ∧
      tree.nodes.map Node.children = [[1], [2, 3, 5], [], [4], [], []] ∧
      IsTree tree.nodes ∧ IsPreorder tree.nodes := by
  intro tokens tree
  have h : Stops nested nestedTable (.initial 2 tokens) ⟨.ok tree, ⟨2, []⟩⟩ := ⟨9, rfl⟩
  obtain ⟨-, -, hreturned⟩ := nested_built.nodes_preorder nestedTable 2 tokens
  obtain ⟨htree, hpreorder, -⟩ := hreturned tree _ h
  exact ⟨h, rfl, htree, hpreorder⟩

end GrammarTables
