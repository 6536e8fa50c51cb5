import GrammarTables.Proofs.Analysis.Settled
import GrammarTables.Proofs.Grammar.Printing
import GrammarTables.Proofs.Text.Align
import GrammarTables.Proofs.Text.Tex
import GrammarTables.Report
import Mathlib.Algebra.Order.BigOperators.Group.List
import Mathlib.Algebra.Order.Group.Nat

/-!
# Proofs/Report/Latex — how symbols are written in LaTeX

A report is laid out with the symbols still to be written (`Grammar.texRules`,
`Grammar.texPredictions`, `Tree.picture`), and the question is how they are.  Every symbol should be
written by itself, the empty string as a letter and any other as its name (`Grammar.tex`).  What is
printed instead replaces the word for the empty string wherever it stands in a name
(`Grammar.texReplaced`): the reports are the layouts with these, and a right side is as it should be
exactly when no name of a symbol in it holds the word (`Grammar.texRight_eq_iff`).  All of this is
said for any escape of names that keeps the word (`Text.Tex.KeepsEpsilon`).
-/

namespace GrammarTables

variable {g : Grammar} {empty left text : String} {escape : String → String}
  {s : SymbolId} {rights : List (List String)} {groups : List ProductionGroup}

/-! ## Layouts -/

namespace Grammar

/-- A symbol as it should be written: the empty string as `empty`, any other as its name. -/
def tex (g : Grammar) (escape : String → String) (empty : String) (s : SymbolId) : String :=
  if s = epsilonId then empty else escape (g.nameOf s)

/-- A symbol as it is written: in a name, too, `empty` is put for the word for the empty string. -/
def texReplaced (g : Grammar) (escape : String → String) (empty : String) (s : SymbolId) :
    String :=
  if s = epsilonId then empty
  else Text.Tex.replaceAll Symbol.epsilonName empty (escape (g.nameOf s))

/-- A right side, each symbol written by itself. -/
def texRight (write : SymbolId → String) (right : List SymbolId) : String :=
  "\\ ".intercalate (right.map write)

/-- The report of the productions: a line of an array for each left side. -/
def texRules (g : Grammar) (escape : String → String) (write : SymbolId → String) : String :=
  "\\\\\n".intercalate (["\\[\\begin\x7barray\x7d\x7bcll\x7d"] ++
    (g.nonTerminalsByName.map fun nt => escape nt.name ++ " & \\rightarrow &" ++
      " \\mid ".intercalate (nt.alternatives.map (texRight write))) ++ ["\\end\x7barray\x7d\\]"])

/-- The report of PREDICT: a row of a table for each production. -/
def texPredictions (g : Grammar) (escape : String → String) (sets : Sets)
    (write : SymbolId → String) : String :=
  "\\begin\x7btabular\x7d\x7bc|l|l\x7d\n\\# & Production & Predict\\\\\\hline\n" ++
    "\\\\\n".intercalate (g.productions.map fun p =>
      texRow [p.ordinal.repr,
        "$" ++ escape (g.nameOf p.left) ++ " \\rightarrow " ++ texRight write p.right ++ "$",
        texSequence escape (g.names (sets.predict g p.left p.right))]) ++
    "\\\\\n\\end\x7btabular\x7d"

end Grammar

namespace Tree

mutual

/-- The picture of a tree: a label for each node. -/
def picture (label : SymbolId → String) : Tree → String
  | epsilon => "\x7b" ++ label epsilonId ++ "\x7d"
  | literal symbol _ => "\x7b" ++ label symbol ++ "\x7d"
  | branch symbol [] => "\x7b" ++ label symbol ++ "\x7d"
  | branch symbol (t :: ts) =>
    "[.\x7b" ++ label symbol ++ "\x7d " ++ picture label t ++ pictureRest label ts ++ " ]"

/-- The children after the first. -/
def pictureRest (label : SymbolId → String) : List Tree → String
  | [] => ""
  | t :: ts => " " ++ picture label t ++ pictureRest label ts

end

end Tree

/-! ## Symbols -/

theorem toList_replaceAll (old new text : String) : (Text.Tex.replaceAll old new text).toList =
    Text.Tex.replaceFrom old.toList new.toList 0 text.toList :=
  String.toList_ofList

/-- The word for the empty string itself is replaced as a whole. -/
theorem replaceAll_epsilonName (empty : String) :
    Text.Tex.replaceAll Symbol.epsilonName empty Symbol.epsilonName = empty := by
  rw [← String.toList_inj, toList_replaceAll]
  simp [Symbol.epsilonName, Text.Tex.replaceFrom]

/-- **A sequence is written symbol by symbol.** -/
theorem texSequence_eq (escape : String → String) (names : List String) :
    texSequence escape names = "\\ ".intercalate
      (names.map fun name =>
        Text.Tex.replaceAll Symbol.epsilonName "\\epsilon" (escape name)) := by
  have hapart : ∀ c ∈ "\\ ".toList, c ∉ Symbol.epsilonName.toList := by
    have hall : "\\ ".toList.all (!Symbol.epsilonName.toList.contains ·) := by decide
    simpa using hall
  rw [texSequence, ← String.toList_inj, toList_replaceAll, String.toList_intercalate,
    String.toList_intercalate, Text.Tex.replaceFrom_intercalate (by decide) (by decide) hapart,
    List.map_map, List.map_map, List.map_map]
  refine congrArg _ (List.map_congr_left fun name _ => ?_)
  simp only [Function.comp_apply, toList_replaceAll]

namespace Grammar

section

variable (hescape : Text.Tex.KeepsEpsilon escape)

include hescape

/-- Replacing in the escaped name of a symbol writes the symbol, the empty string too. -/
theorem WellFormed.replaceAll_nameOf (hg : g.WellFormed) (empty : String) (s : SymbolId) :
    Text.Tex.replaceAll Symbol.epsilonName empty (escape (g.nameOf s)) =
      g.texReplaced escape empty s := by
  rw [texReplaced]
  split
  · next hs => rw [hs, hg.nameOf_epsilon, hescape.escape_epsilonName, replaceAll_epsilonName]
  · rfl

/-- So a right side is written symbol by symbol, as it stands in the grammar. -/
theorem WellFormed.texSequence_spell (hg : g.WellFormed) (right : List SymbolId) :
    texSequence escape (g.spell right) = texRight (g.texReplaced escape "\\epsilon") right := by
  rw [texSequence_eq, spell, List.map_map, texRight]
  exact congrArg _ (List.map_congr_left fun s _ => hg.replaceAll_nameOf hescape "\\epsilon" s)

variable (hempty : Symbol.epsilonName.length < empty.length)

include hempty

omit hescape in
/-- The letter is longer than the word, so a text gets no shorter when it is put in. -/
theorem length_tex_le (g : Grammar) (s : SymbolId) :
    (g.tex escape empty s).length ≤ (g.texReplaced escape empty s).length := by
  rw [tex, texReplaced]
  split
  · exact le_rfl
  · rw [← String.length_toList, ← String.length_toList, toList_replaceAll]
    have hlength := Text.Tex.length_le_length_replaceFrom (by decide) hempty 0
      (escape (g.nameOf s)).toList
    rwa [Nat.zero_add] at hlength

/-- **A symbol is written as it should be** when its name does not hold the word. -/
theorem texReplaced_eq_tex_iff (s : SymbolId) :
    g.texReplaced escape empty s = g.tex escape empty s ↔
      s = epsilonId ∨ ¬ HoldsEpsilon (g.nameOf s) := by
  rw [tex, texReplaced]
  split
  · next hs => exact iff_of_true rfl (Or.inl hs)
  · next hs =>
    rw [← String.toList_inj, toList_replaceAll, Text.Tex.replaceFrom_eq_self_iff (by decide) hempty,
      or_iff_right hs, ← hescape.holds_iff]
    exact Iff.rfl

/-- A symbol that is not written as it should be is written with more characters. -/
theorem length_tex_lt (h : g.texReplaced escape empty s ≠ g.tex escape empty s) :
    (g.tex escape empty s).length < (g.texReplaced escape empty s).length := by
  rw [ne_eq, texReplaced_eq_tex_iff hescape hempty, not_or, not_not] at h
  obtain ⟨hs, hholds⟩ := h
  rw [tex, texReplaced, if_neg hs, if_neg hs, ← String.length_toList, ← String.length_toList,
    toList_replaceAll]
  exact Text.Tex.length_lt_length_replaceFrom (by decide) hempty
    ((hescape.holds_iff (g.nameOf s)).mpr hholds)

omit hescape hempty in
/-- The length of a right side counts its symbols and what stands between them, so that one symbol
that is too long cannot be made up for by another. -/
theorem length_texRight (write : SymbolId → String) (right : List SymbolId) :
    (texRight write right).length =
      (right.map fun s => (write s).length).sum + (right.length - 1) * 2 := by
  rw [texRight, ← String.length_toList, String.toList_intercalate, Text.length_intercalate,
    List.map_map, List.map_map, List.length_map, List.length_map]
  rfl

/-- **A right side is written as it should be** when no name in it holds the word. -/
theorem texRight_eq_iff (right : List SymbolId) :
    texRight (g.texReplaced escape empty) right = texRight (g.tex escape empty) right ↔
      ∀ s ∈ right, s = epsilonId ∨ ¬ HoldsEpsilon (g.nameOf s) := by
  simp only [← texReplaced_eq_tex_iff hescape hempty]
  refine ⟨fun h s hs => ?_, fun h => by rw [texRight, texRight, List.map_congr_left h]⟩
  by_contra hne
  have hlonger : (right.map fun s => (g.tex escape empty s).length).sum <
      (right.map fun s => (g.texReplaced escape empty s).length).sum :=
    List.sum_lt_sum _ _ (fun s _ => length_tex_le hempty g s)
      ⟨s, hs, length_tex_lt hescape hempty hne⟩
  have hlength := congrArg String.length h
  rw [length_texRight, length_texRight] at hlength
  omega

end

end Grammar

/-! ## Productions by left side -/

/-- A group without its ordinals. -/
def ProductionGroup.entry (group : ProductionGroup) : String × Alternatives :=
  (group.left, group.rights.map Prod.snd)

/-- Right sides that are added before a group with another left side make a group. -/
theorem entry_foldr_addToGroups {added : List (String × Nat × List String)}
    (hne : rights ≠ []) (hadded : added.map (fun e => (e.1, e.2.2)) = rights.map (Prod.mk left))
    (hhead : ∀ group ∈ groups.head?, left ≠ group.left) :
    (added.foldr (fun e => addToGroups e.1 e.2) groups).map ProductionGroup.entry =
      (left, rights) :: groups.map ProductionGroup.entry := by
  induction rights generalizing added with
  | nil => exact absurd rfl hne
  | cons right rights ih =>
    obtain ⟨⟨left', ordinal, right'⟩, added, rfl, hfirst, hrest⟩ := List.map_eq_cons_iff.mp hadded
    obtain ⟨rfl, rfl⟩ := Prod.mk.inj hfirst
    rw [List.foldr_cons]
    cases rights with
    | nil =>
      obtain rfl := List.map_eq_nil_iff.mp hrest
      cases groups with
      | nil => rfl
      | cons group groups =>
        rw [List.foldr_nil, addToGroups, if_neg (hhead group rfl)]
        rfl
    | cons next rights =>
      obtain ⟨group, groups', hgroups, hentry, hentries⟩ :=
        List.map_eq_cons_iff.mp (ih (List.cons_ne_nil _ _) hrest)
      obtain ⟨hleft, hrights⟩ := Prod.mk.inj hentry
      rw [hgroups, addToGroups, if_pos hleft.symm, List.map_cons, hentries]
      simp [ProductionGroup.entry, hrights]

/-- **Right sides with the left sides in a row** make a group for each left side. -/
theorem entries_foldr_addToGroups {added : List (String × Nat × List String)}
    {entries : List (String × Alternatives)} (hne : ∀ entry ∈ entries, entry.2 ≠ [])
    (hnames : entries.Pairwise fun entry entry' => entry.1 ≠ entry'.1)
    (hadded : added.map (fun e => (e.1, e.2.2)) =
      entries.flatMap fun entry => entry.2.map (Prod.mk entry.1)) :
    (added.foldr (fun e => addToGroups e.1 e.2) []).map ProductionGroup.entry = entries := by
  induction entries generalizing added with
  | nil => rw [List.map_eq_nil_iff.mp hadded]; rfl
  | cons entry entries ih =>
    obtain ⟨hfirst, hrest⟩ := List.forall_mem_cons.mp hne
    obtain ⟨hname, hnames⟩ := List.pairwise_cons.mp hnames
    rw [List.flatMap_cons] at hadded
    obtain ⟨added, added', rfl, hhere, hlater⟩ := List.map_eq_append_iff.mp hadded
    have hgroups := ih hrest hnames hlater
    rw [List.foldr_append, entry_foldr_addToGroups hfirst hhere, hgroups]
    intro group hgroup heq
    refine hname group.entry ?_ heq
    rw [← hgroups]
    exact List.mem_map_of_mem (List.mem_of_mem_head? hgroup)

/-- **The report has a group for each non-terminal**, in the order of the names. -/
theorem Loads.entries_productionReport {rules : List Rule} (h : Loads text rules g) :
    g.productionReport.groups.map ProductionGroup.entry =
      g.nonTerminalsByName.map fun nt => (nt.name, nt.alternatives.map g.spell) := by
  have hadded : (g.productions.map fun p => (g.nameOf p.left, p.ordinal, g.spell p.right)).map
      (fun e => (e.1, e.2.2)) =
        (g.nonTerminalsByName.map fun nt => (nt.name, nt.alternatives.map g.spell)).flatMap
          fun entry => entry.2.map (Prod.mk entry.1) := by
    rw [List.map_map, h.built.productions_eq, map_numberedProductions fun _ _ => rfl,
      List.map_flatMap, List.flatMap_map]
    refine List.flatMap_congr fun nt hnt => ?_
    rw [NonTerminal.productions, List.map_map, List.map_map]
    conv_rhs => rw [← List.zipIdx_map_fst 0 nt.alternatives, List.map_map]
    refine List.map_congr_left fun entry _ => ?_
    exact congrArg (Prod.mk · _) (nameOf_index_of_mem (Ascending.mem_sortBy.mp hnt))
  rw [Grammar.productionReport, ← entries_foldr_addToGroups ?_ ?_ hadded, List.foldr_map]
  · intro entry hentry
    obtain ⟨nt, hnt, rfl⟩ := List.mem_map.mp hentry
    exact (h.writable _ (List.mem_map_of_mem (Ascending.mem_sortBy.mp hnt))).ne_nil
  · refine List.pairwise_map.mpr (h.built.wellFormed.pairwise_nonTerminalsByName.imp ?_)
    intro nt nt' hlt (heq : nt.name = nt'.name)
    exact String.lt_irrefl _ (heq ▸ hlt)

/-- A group in LaTeX depends on its entry only. -/
theorem latex_eq_of_ne_nil {group : ProductionGroup} (hne : group.entry.2 ≠ []) :
    group.latex true escape = escape group.entry.1 ++ " & \\rightarrow &" ++
      " \\mid ".intercalate (group.entry.2.map (texSequence escape)) := by
  rw [ProductionGroup.latex, if_neg, if_pos rfl, ProductionGroup.entry, List.map_map]
  · rfl
  · rw [List.isEmpty_iff]
    rintro hnil
    exact hne (List.map_eq_nil_iff.mpr hnil)

/-- **The productions in LaTeX**, symbol by symbol. -/
theorem Loads.latex_productionReport {rules : List Rule} (h : Loads text rules g)
    (hescape : Text.Tex.KeepsEpsilon escape) :
    g.productionReport.latex escape = g.texRules escape (g.texReplaced escape "\\epsilon") := by
  have hentries := h.entries_productionReport
  have hgroups : (g.productionReport.groups.map fun group => group.latex true escape) =
      (g.productionReport.groups.map ProductionGroup.entry).map fun entry =>
        escape entry.1 ++ " & \\rightarrow &" ++
          " \\mid ".intercalate (entry.2.map (texSequence escape)) := by
    rw [List.map_map]
    refine List.map_congr_left fun group hgroup => latex_eq_of_ne_nil ?_
    obtain ⟨nt, hnt, hentry⟩ := List.mem_map.mp (hentries ▸ List.mem_map_of_mem hgroup)
    rw [← hentry]
    exact (h.writable _ (List.mem_map_of_mem (Ascending.mem_sortBy.mp hnt))).ne_nil
  rw [ProductionReport.latex, hgroups, hentries, Grammar.texRules, List.map_map]
  simp only [Function.comp_def, List.map_map, h.built.wellFormed.texSequence_spell hescape]

/-! ## PREDICT and trees -/

/-- **PREDICT in LaTeX**, symbol by symbol. -/
theorem Grammar.WellFormed.exists_latex_predictReport (hg : g.WellFormed)
    (hescape : Text.Tex.KeepsEpsilon escape) :
    ∃ sets, g.sets = .ok sets ∧ Report.predict.render .latex g escape =
      .ok (g.texPredictions escape sets (g.texReplaced escape "\\epsilon")) := by
  obtain ⟨sets, hsets, -⟩ := hg.exists_sets
  refine ⟨sets, hsets, ?_⟩
  have hrender : Report.predict.render .latex g escape =
      .ok (PredictReport.latex escape ⟨g.productions.map fun p =>
        ⟨p.ordinal, g.nameOf p.left, g.spell p.right,
          g.names (sets.predict g p.left p.right)⟩⟩) := by
    rw [Report.render, predictReport, hsets]
    rfl
  rw [hrender]
  delta PredictReport.latex texPredictions
  simp only [List.map_map, Function.comp_def, hg.texSequence_spell hescape]

namespace Tree

mutual

/-- **A tree in LaTeX**, node by node. -/
theorem latex_eq_picture (hg : g.WellFormed) (hescape : Text.Tex.KeepsEpsilon escape) :
    ∀ t : Tree, t.latex escape g = t.picture (g.texReplaced escape "$\\epsilon$")
  | epsilon => by rw [latex, picture, texLabel, hg.replaceAll_nameOf hescape]
  | literal symbol _ => by rw [latex, picture, texLabel, hg.replaceAll_nameOf hescape]
  | branch symbol [] => by rw [latex, picture, texLabel, hg.replaceAll_nameOf hescape]
  | branch symbol (t :: ts) => by
    rw [latex, picture, texLabel, hg.replaceAll_nameOf hescape, latex_eq_picture hg hescape t,
      latexRest_eq_pictureRest hg hescape ts]

theorem latexRest_eq_pictureRest (hg : g.WellFormed) (hescape : Text.Tex.KeepsEpsilon escape) :
    ∀ ts : List Tree,
      latexRest escape g ts = pictureRest (g.texReplaced escape "$\\epsilon$") ts
  | [] => rfl
  | t :: ts => by
    rw [latexRest, pictureRest, latex_eq_picture hg hescape t,
      latexRest_eq_pictureRest hg hescape ts]

end

end Tree

/-- The picture of the start symbol's tree, as LaTeX draws it. -/
def ParseTree.picture (label : SymbolId → String) (t : ParseTree) : String :=
  "\\Tree " ++ (t.start?.map (Tree.picture label)).getD ""

namespace Grammar

/-- **Names in LaTeX.**  With an escape that keeps the word for the empty string, every symbol in
the reports of a loaded grammar is written by itself, the empty string as a letter, and any other
symbol as its name, save that the letter also stands for the word in a name that holds it.  So a
right side, or the label of a node, is written as it should be exactly when no other symbol there
has such a name. -/
theorem latex_exact (hescape : Text.Tex.KeepsEpsilon escape) (h : ofText text = .ok g) :
    Report.productions.render .latex g escape =
        .ok (g.texRules escape (g.texReplaced escape "\\epsilon")) ∧
      (∃ sets, g.sets = .ok sets ∧ Report.predict.render .latex g escape =
        .ok (g.texPredictions escape sets (g.texReplaced escape "\\epsilon"))) ∧
      (∀ t : ParseTree, t.render .latex g escape =
        t.picture (g.texReplaced escape "$\\epsilon$")) ∧
      (∀ right, texRight (g.texReplaced escape "\\epsilon") right =
          texRight (g.tex escape "\\epsilon") right ↔
        ∀ s ∈ right, s = epsilonId ∨ ¬ HoldsEpsilon (g.nameOf s)) ∧
      ∀ s, g.texReplaced escape "$\\epsilon$" s = g.tex escape "$\\epsilon$" s ↔
        s = epsilonId ∨ ¬ HoldsEpsilon (g.nameOf s) := by
  obtain ⟨rules, hloads⟩ := exists_loads h
  have hg := hloads.built.wellFormed
  refine ⟨?_, hg.exists_latex_predictReport hescape, fun t => ?_,
    texRight_eq_iff hescape (by decide), texReplaced_eq_tex_iff hescape (by decide)⟩
  · rw [Report.render, hloads.latex_productionReport hescape]
  · rw [ParseTree.render, ParseTree.latex, ParseTree.picture,
      funext (Tree.latex_eq_picture hg hescape)]

/-- A terminal whose name holds the word. -/
def swallowed : Grammar :=
  ⟨[.epsilon, .endMark, .nonTerminal "S" [[3]], .terminal "lambdas"], 2, [⟨1, 2, 0, [3]⟩]⟩

theorem latex_exact_swallowed :
    Text.Tex.KeepsEpsilon Text.Tex.escape ∧ ofText "S -> lambdas" = .ok swallowed ∧
      Report.productions.render .latex swallowed =
        .ok (swallowed.texRules Text.Tex.escape
          (swallowed.texReplaced Text.Tex.escape "\\epsilon")) ∧
      texRight (swallowed.texReplaced Text.Tex.escape "\\epsilon") [0, 2] =
        texRight (swallowed.tex Text.Tex.escape "\\epsilon") [0, 2] ∧
      texRight (swallowed.texReplaced Text.Tex.escape "\\epsilon") [0, 3] ≠
        texRight (swallowed.tex Text.Tex.escape "\\epsilon") [0, 3] := by
  have hload : ofText "S -> lambdas" = .ok swallowed := by rfl
  obtain ⟨hrules, -, -, hright, -⟩ := latex_exact Text.Tex.keepsEpsilon_escape hload
  exact ⟨Text.Tex.keepsEpsilon_escape, hload, hrules, (hright [0, 2]).mpr (by decide),
    (hright [0, 3]).not.mpr (by decide)⟩

/-- **A name that holds the word** is not written as it should be in any of the three. -/
theorem latex_ne_tex :
    ofText "S -> lambdas" = .ok swallowed ∧
      Report.productions.render .latex swallowed ≠
        .ok (swallowed.texRules Text.Tex.escape (swallowed.tex Text.Tex.escape "\\epsilon")) ∧
      (∃ sets, swallowed.sets = .ok sets ∧ Report.predict.render .latex swallowed ≠
        .ok (swallowed.texPredictions Text.Tex.escape sets
          (swallowed.tex Text.Tex.escape "\\epsilon"))) ∧
      ParseTree.render ⟨[.branch 2 [.literal 3 ⟨"lambdas", none⟩]]⟩ .latex swallowed ≠
        ParseTree.picture (swallowed.tex Text.Tex.escape "$\\epsilon$")
          ⟨[.branch 2 [.literal 3 ⟨"lambdas", none⟩]]⟩ :=
  ⟨by rfl, by decide +kernel, ⟨_, by rfl, by decide +kernel⟩, by decide +kernel⟩

end Grammar

end GrammarTables
