import GrammarTables.Proofs.Predictive.Soundness
import GrammarTables.Proofs.Text.Json
import GrammarTables.Report.Tree

/-!
# Proofs/Predictive/TreeJson — the JSON text of a tree tells the tree

The object of a node has neither its number nor the numbers of its parent and children, not even
the kind of its token, and it leaves out what is not there.  All of that can be told from the rest
when the tree follows the rules of the grammar (`Tree.eq_of_json_eq`): names of symbols determine
the symbols (`Grammar.WellFormed.eq_of_nameOf_eq`), these determine whether the node is a leaf and
which kind its token has, and the numbers are those of a walk through the tree.
-/

namespace GrammarTables

open Text (Json)

variable {g : Grammar} {s : SymbolId} {token token' : Token} {t t' : Tree} {ts ts' : List Tree}

namespace Tree

/-- The field tells the lexeme: it is there exactly when the lexeme is, and has its text. -/
theorem lexeme_eq_of_lexemeField_eq (h : lexemeField token = lexemeField token') :
    token.lexeme = token'.lexeme := by
  obtain ⟨kind, lexeme⟩ := token
  obtain ⟨kind', lexeme'⟩ := token'
  cases lexeme with
  | none =>
    cases lexeme' with
    | none => rfl
    | some text' => exact absurd h.symm (List.cons_ne_nil _ _)
  | some text =>
    cases lexeme' with
    | none => exact absurd h (List.cons_ne_nil _ _)
    | some text' =>
      have hfield : ("lexeme", Json.str text) = ("lexeme", Json.str text') :=
        List.head_eq_of_cons_eq h
      exact congrArg some (Json.str.inj (Prod.mk.inj hfield).2)

/-- The first field is the name of the symbol. -/
theorem exists_json_eq (g : Grammar) (t : Tree) :
    ∃ fields, t.json g = .obj (("symbol", .str (g.nameOf t.symbol)) :: fields) := by
  cases t with
  | epsilon => exact ⟨[], rfl⟩
  | literal s token => exact ⟨lexemeField token, rfl⟩
  | branch s ts =>
    cases ts with
    | nil => exact ⟨[], rfl⟩
    | cons t ts => exact ⟨[("children", .arr (t.json g :: jsonForest g ts))], rfl⟩

/-- Names of symbols are told apart, so the first field tells the symbol. -/
theorem symbol_eq_of_json_eq (hg : g.WellFormed) (h : t.FollowsRules g) (h' : t'.FollowsRules g)
    (hjson : t.json g = t'.json g) : t.symbol = t'.symbol := by
  obtain ⟨fields, hfields⟩ := exists_json_eq g t
  obtain ⟨fields', hfields'⟩ := exists_json_eq g t'
  rw [hfields, hfields'] at hjson
  simp only [Json.obj.injEq, List.cons.injEq, Prod.mk.injEq, Json.str.injEq] at hjson
  exact hg.eq_of_nameOf_eq (h.symbol_lt hg) (h'.symbol_lt hg) hjson.1.2

/-- The object of a branch tells the objects of its children: without children it has no field
behind the symbol, and with children these are the next field. -/
theorem jsonForest_eq_of_json_eq (hjson : (branch s ts).json g = (branch s ts').json g) :
    jsonForest g ts = jsonForest g ts' := by
  have childrenField (t : Tree) (ts : List Tree) : (branch s (t :: ts)).json g =
      .obj [("symbol", .str (g.nameOf s)), ("children", .arr (jsonForest g (t :: ts)))] := by
    rw [json, jsonForest]
  cases ts with
  | nil =>
    cases ts' with
    | nil => rfl
    | cons t' ts' =>
      rw [json, childrenField] at hjson
      exact absurd (List.tail_eq_of_cons_eq (Json.obj.inj hjson)).symm (List.cons_ne_nil _ _)
  | cons t ts =>
    cases ts' with
    | nil =>
      rw [json, childrenField] at hjson
      exact absurd (List.tail_eq_of_cons_eq (Json.obj.inj hjson)) (List.cons_ne_nil _ _)
    | cons t' ts' =>
      rw [childrenField, childrenField] at hjson
      have hfield := List.head_eq_of_cons_eq (List.tail_eq_of_cons_eq (Json.obj.inj hjson))
      exact Json.arr.inj (Prod.mk.inj hfield).2

mutual

/-- **The object of a tree that follows the rules tells the tree.** -/
theorem eq_of_json_eq (hg : g.WellFormed) : ∀ t t' : Tree, t.FollowsRules g → t'.FollowsRules g →
    t.json g = t'.json g → t = t'
  | .epsilon, .epsilon, _, _, _ => rfl
  | .literal s token, .literal s' token', h, h', hjson => by
    obtain rfl : s = s' := symbol_eq_of_json_eq hg h h' hjson
    have hkind : token.kind = token'.kind := h.2.trans h'.2.symm
    have hlexeme : token.lexeme = token'.lexeme := by
      simp only [json, Json.obj.injEq, List.cons.injEq, true_and] at hjson
      exact lexeme_eq_of_lexemeField_eq hjson
    obtain ⟨kind, lexeme⟩ := token
    obtain ⟨kind', lexeme'⟩ := token'
    obtain rfl : kind = kind' := hkind
    obtain rfl : lexeme = lexeme' := hlexeme
    rfl
  | .branch s ts, .branch s' ts', h, h', hjson => by
    obtain rfl : s = s' := symbol_eq_of_json_eq hg h h' hjson
    rw [eq_of_jsonForest_eq hg ts ts' h.2 h'.2 (jsonForest_eq_of_json_eq hjson)]
  -- The symbols tell apart what is left.
  | .epsilon, .literal s token, h, h', hjson =>
    absurd (symbol_eq_of_json_eq hg h h' hjson).symm (hg.ne_epsilon_of_isLiteral h'.1)
  | .epsilon, .branch s ts, h, h', hjson =>
    absurd (symbol_eq_of_json_eq hg h h' hjson).symm
      (hg.ne_epsilon_of_isNonTerminal (h'.isNonTerminal hg))
  | .literal s token, .epsilon, h, h', hjson =>
    absurd (symbol_eq_of_json_eq hg h h' hjson) (hg.ne_epsilon_of_isLiteral h.1)
  | .branch s ts, .epsilon, h, h', hjson =>
    absurd (symbol_eq_of_json_eq hg h h' hjson)
      (hg.ne_epsilon_of_isNonTerminal (h.isNonTerminal hg))
  | .literal s token, .branch s' ts, h, h', hjson => by
    obtain rfl : s = s' := symbol_eq_of_json_eq hg h h' hjson
    have hnot := Grammar.isNonTerminal_eq_false_of_isLiteral h.1
    exact absurd (hnot.symm.trans (h'.isNonTerminal hg)) Bool.false_ne_true
  | .branch s ts, .literal s' token, h, h', hjson => by
    obtain rfl : s = s' := symbol_eq_of_json_eq hg h h' hjson
    have hnot := Grammar.isNonTerminal_eq_false_of_isLiteral h'.1
    exact absurd (hnot.symm.trans (h.isNonTerminal hg)) Bool.false_ne_true

/-- So do the objects of several trees. -/
theorem eq_of_jsonForest_eq (hg : g.WellFormed) : ∀ ts ts' : List Tree, ForestFollowsRules g ts →
    ForestFollowsRules g ts' → jsonForest g ts = jsonForest g ts' → ts = ts'
  | [], [], _, _, _ => rfl
  | t :: ts, t' :: ts', h, h', hjson => by
    rw [jsonForest, jsonForest] at hjson
    obtain ⟨hhead, htail⟩ := List.cons.inj hjson
    rw [eq_of_json_eq hg t t' h.1 h'.1 hhead, eq_of_jsonForest_eq hg ts ts' h.2 h'.2 htail]
  | [], _ :: _, _, _, hjson => nomatch hjson
  | _ :: _, [], _, _, hjson => nomatch hjson

end

end Tree

/-- **The compact JSON text of a tree is lossless.**  Whatever the tables, start symbols and
streams, trees of successful parses that are written as one text are one tree, node by node. -/
theorem Grammar.Built.parse_json_injective (hg : g.Built) {table table' : PredictiveTable}
    {x x' : SymbolId} {tokens tokens' rest rest' : TokenStream} {tree tree' : ParseTree}
    (h : Stops g table (.initial x tokens) ⟨.ok tree, rest⟩)
    (h' : Stops g table' (.initial x' tokens') ⟨.ok tree', rest'⟩)
    (hjson : (tree.json g).compact = (tree'.json g).compact) :
    tree = tree' ∧ tree.nodes = tree'.nodes := by
  have hwell := hg.wellFormed
  obtain ⟨trees⟩ := tree
  obtain ⟨trees'⟩ := tree'
  obtain ⟨t, rfl, -, hfollows, -⟩ := h.sound hwell _ rfl
  obtain ⟨t', rfl, -, hfollows', -⟩ := h'.sound hwell _ rfl
  obtain rfl := Tree.eq_of_json_eq hwell t t' hfollows hfollows' (Json.compact_injective hjson)
  exact ⟨rfl, rfl⟩

/-- An end mark more at the end of the stream gives the same tree. -/
theorem Grammar.parse_json_injective_nested :
    let tokens := TokenStream.ofList [⟨"a", some "x"⟩, ⟨"b", none⟩]
    let marked := TokenStream.ofList [⟨"a", some "x"⟩, ⟨"b", none⟩, ⟨"$", none⟩]
    let tree : ParseTree :=
      ⟨[.branch 2 [.literal 3 ⟨"a", some "x"⟩, .branch 2 [.epsilon], .literal 4 ⟨"b", none⟩]]⟩
    ∃ tree', Stops nested nestedTable (.initial 2 tokens) ⟨.ok tree, ⟨2, []⟩⟩ ∧
      Stops nested nestedTable (.initial 2 marked) ⟨.ok tree', ⟨3, []⟩⟩ ∧
      (tree.json nested).compact = (tree'.json nested).compact ∧
      tree = tree' ∧ tree.nodes = tree'.nodes := by
  intro tokens marked tree
  have h : Stops nested nestedTable (.initial 2 tokens) ⟨.ok tree, ⟨2, []⟩⟩ := ⟨9, rfl⟩
  have h' : Stops nested nestedTable (.initial 2 marked) ⟨.ok tree, ⟨3, []⟩⟩ := ⟨9, rfl⟩
  exact ⟨tree, h, h', rfl, nested_built.parse_json_injective h h' rfl⟩

end GrammarTables
