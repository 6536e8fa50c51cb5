import GrammarTables.Proofs.Grammar.Loader
import GrammarTables.Proofs.Predictive.Prefix
import GrammarTables.Proofs.Token
import Mathlib.Data.Fintype.Card
import Mathlib.Data.Fintype.EquivFin

/-!
# Proofs/Predictive/Halting — which parses come to an end

The stream goes on with end marks when its tokens have run out, and so may the parser: it stops
exactly when some of the kinds to come cannot be read (`WellFormed.exists_parseFrom_iff`), and a
grammar can ask for end marks without end.

It does so exactly when a non-terminal leads back to itself behind end marks alone
(`Grammar.EndMarkRecursive`).  One direction repeats this derivation.  For the other, an endless
form has a symbol that is endless by itself, with nothing but end marks before it
(`Endless.exists_append`); the parser, run from this symbol on end marks, takes one of them and then
stands before an endless form again (`Sets.Decides.exists_feeds`).  There are finitely many symbols,
so one of them comes back.
-/

namespace GrammarTables

variable {g : Grammar} {table : PredictiveTable} {policy : ConflictPolicy} {sets : Sets}
  {tokens : TokenStream} {c : Config} {r s x : SymbolId} {form w : List SymbolId}
  {names : List String} {i m n : Nat}

/-! ## Reading end marks -/

namespace TokenStream

/-- A stream that has run out shows end marks only. -/
theorem kinds_of_rest_eq_nil (h : tokens.rest = []) :
    tokens.kinds n = List.replicate n Symbol.endMarkName := by
  rw [kinds, h, List.map_nil, List.nil_append, List.take_replicate, Nat.min_self]

end TokenStream

namespace Grammar

/-- What can be read can be read in part. -/
theorem Begins.take (h : g.Begins form names) (n : Nat) : g.Begins form (names.take n) := by
  obtain ⟨w, rest, hw, rfl, hderives⟩ := h
  refine ⟨w.take n, w.drop n ++ rest, fun s hs => hw s (List.mem_of_mem_take hs), ?_, ?_⟩
  · exact List.map_take
  · rwa [← List.append_assoc, List.take_append_drop]

/-- Only the end mark is called so. -/
theorem WellFormed.eq_endMark_of_nameOf (hg : g.WellFormed) (hs : g.isLiteral s)
    (h : g.nameOf s = Symbol.endMarkName) : s = endMarkId := by
  have hindex := hg.index?_nameOf (lt_length_of_isLiteral hs)
  rw [h, ← hg.nameOf_endMark, hg.index?_nameOf (lt_length_of_isLiteral hg.isLiteral_endMark)]
    at hindex
  exact (Option.some.inj hindex).symm

theorem WellFormed.isWord_replicate_endMark (hg : g.WellFormed) (n : Nat) :
    g.IsWord (List.replicate n endMarkId) := fun _ hs =>
  List.eq_of_mem_replicate hs ▸ hg.isLiteral_endMark

/-- End marks are read where end marks can be derived. -/
theorem WellFormed.begins_replicate_iff (hg : g.WellFormed) :
    g.Begins form (List.replicate n Symbol.endMarkName) ↔
      ∃ rest, g.Derives form (List.replicate n endMarkId ++ rest) := by
  constructor
  · rintro ⟨w, rest, hw, hspell, hderives⟩
    obtain ⟨hlength, hnames⟩ := List.eq_replicate_iff.mp hspell
    obtain rfl : w = List.replicate n endMarkId := by
      refine List.eq_replicate_iff.mpr ⟨List.length_map g.nameOf ▸ hlength, fun s hs => ?_⟩
      exact hg.eq_endMark_of_nameOf (hw s hs) (hnames _ (List.mem_map_of_mem hs))
    exact ⟨rest, hderives⟩
  · rintro ⟨rest, hderives⟩
    refine ⟨List.replicate n endMarkId, rest, hg.isWord_replicate_endMark n, ?_, hderives⟩
    rw [spell, List.map_replicate, hg.nameOf_endMark]

/-! ## Forms that begin with any number of end marks -/

/-- Any number of end marks can be derived from the form before anything else. -/
def Endless (g : Grammar) (form : List SymbolId) : Prop :=
  ∀ n, ∃ rest, g.Derives form (List.replicate n endMarkId ++ rest)

/-- Reading end marks, and at least one of them, leads from `s` to `r`. -/
def Feeds (g : Grammar) (s r : SymbolId) : Prop :=
  ∃ k rest, g.Derives [s] (List.replicate (k + 1) endMarkId ++ r :: rest)

/-- Reading end marks leads from a non-terminal of a form of `x` back to it, with nothing but a word
before it. -/
def EndMarkRecursive (g : Grammar) (x : SymbolId) : Prop :=
  ∃ u a rest, g.IsWord u ∧ g.Derives [x] (u ++ a :: rest) ∧ g.Feeds a a

theorem Feeds.trans {t : SymbolId} (h : g.Feeds s r) (h' : g.Feeds r t) : g.Feeds s t := by
  obtain ⟨k, rest, hs⟩ := h
  obtain ⟨k', rest', hr⟩ := h'
  have hctx := hr.context (List.replicate (k + 1) endMarkId) rest
  have hcount : List.replicate (k + k' + 1 + 1) endMarkId =
      List.replicate (k + 1) endMarkId ++ List.replicate (k' + 1) endMarkId := by
    rw [← List.replicate_add]
    congr 1
    omega
  refine ⟨k + k' + 1, rest' ++ rest, hs.trans ?_⟩
  rw [hcount]
  simpa only [List.append_assoc, List.cons_append, List.nil_append] using hctx

/-- What feeds itself is endless. -/
theorem Feeds.endless (h : g.Feeds s s) : g.Endless [s] := by
  obtain ⟨k, rest, h⟩ := h
  intro n
  induction n with
  | zero => exact ⟨[s], .refl [s]⟩
  | succ n ih =>
    obtain ⟨behind, hn⟩ := ih
    have hctx := hn.context (List.replicate (k + 1) endMarkId) rest
    refine ⟨List.replicate k endMarkId ++ behind ++ rest, h.trans ?_⟩
    have hswap : List.replicate (n + 1) endMarkId ++ List.replicate k endMarkId =
        List.replicate (k + 1) endMarkId ++ List.replicate n endMarkId := by
      rw [← List.replicate_add, ← List.replicate_add]
      congr 1
      omega
    rw [← List.append_assoc, ← List.append_assoc, hswap]
    simpa only [List.append_assoc, List.cons_append, List.nil_append] using hctx

theorem WellFormed.endless_of_begins (hg : g.WellFormed)
    (h : ∀ n, g.Begins form (List.replicate (n + 1) Symbol.endMarkName)) : g.Endless form := by
  intro n
  obtain ⟨rest, hn⟩ := hg.begins_replicate_iff.mp (h n)
  refine ⟨endMarkId :: rest, ?_⟩
  rwa [List.replicate_succ', List.append_assoc] at hn

/-- A symbol that derives several end marks has a production. -/
theorem Endless.isNonTerminal (hg : g.WellFormed) (h : g.Endless [s]) : g.isNonTerminal s := by
  obtain ⟨rest, hderives⟩ := h 2
  rcases Relation.ReflTransGen.cases_head hderives with hform | ⟨form, hstep, -⟩
  · exact absurd (congrArg List.length hform) (by simp)
  · generalize hs : [s] = front at hstep
    obtain ⟨u, v, p, hp⟩ := hstep
    have hmem : p.left ∈ [s] := by rw [hs]; simp
    exact List.mem_singleton.mp hmem ▸ hg.isNonTerminal_left hp

/-- **An endless form has a symbol that is endless by itself**, and only end marks come before
it. -/
theorem Endless.exists_append (h : g.Endless form) : ∃ before s after j,
    form = before ++ s :: after ∧ g.Derives before (List.replicate j endMarkId) ∧
      g.Endless [s] := by
  induction form with
  | nil =>
    obtain ⟨rest, hderives⟩ := h 1
    exact absurd (derives_nil_iff.mp hderives) (List.cons_ne_nil _ _)
  | cons s form ih =>
    by_cases hs : g.Endless [s]
    · exact ⟨[], s, form, 0, rfl, .refl [], hs⟩
    -- `s` derives fewer than `n` end marks, so the others come from the rest of the form
    obtain ⟨n, hn⟩ := not_forall.mp hs
    have hsplit (m : Nat) : ∃ i rest, g.Derives [s] (List.replicate i endMarkId) ∧
        g.Derives form (List.replicate m endMarkId ++ rest) := by
      obtain ⟨rest, hderives⟩ := h (n + m)
      obtain ⟨front, back, hwhole, hfront, hback⟩ := Derives.exists_append (u := [s]) hderives
      rw [List.replicate_add, List.append_assoc] at hwhole
      rcases List.append_eq_append_iff.mp hwhole with ⟨b, rfl, -⟩ | ⟨b, hreplicate, rfl⟩
      · exact absurd ⟨b, hfront⟩ hn
      · obtain ⟨-, hends, hb⟩ := List.append_eq_replicate_iff.mp hreplicate.symm
        rw [hends] at hfront
        refine ⟨_, b ++ rest, hfront, ?_⟩
        have hcomm : List.replicate m endMarkId ++ b = b ++ List.replicate m endMarkId := by
          rw [hb, ← List.replicate_add, ← List.replicate_add, Nat.add_comm]
        rw [← List.append_assoc, hcomm]
        simpa only [List.append_assoc] using hback
    obtain ⟨i, -, hfirst, -⟩ := hsplit 0
    obtain ⟨before, r, after, j, rfl, hbefore, hr⟩ := ih fun m =>
      let ⟨_, rest, _, hform⟩ := hsplit m
      ⟨rest, hform⟩
    refine ⟨s :: before, r, after, i + j, rfl, ?_, hr⟩
    rw [List.replicate_add]
    exact hfirst.append hbefore

end Grammar

/-! ## The parser on end marks -/

/-- **From an endless symbol the parser takes an end mark**, and gets to an endless symbol. -/
theorem Sets.Decides.exists_feeds (hd : sets.Decides g table) (hsets : g.sets = .ok sets)
    (htable : g.predictiveTable policy = .ok table) (h : g.Endless [s]) :
    ∃ r, g.Feeds s r ∧ g.Endless [r] := by
  have hg := hd.wellFormed
  have hs := h.isNonTerminal hg
  have hanchors := hd.settled.anchors_singleton hg s
  let c : Config := ⟨[.symbol s], [], [], false, ⟨0, []⟩⟩
  have hasked : asked c.stack = [s] := by
    rw [asked_cons, StackEntry.asks_symbol (hg.ne_epsilon_of_isNonTerminal hs)]
    rfl
  have hstart : g.Derives [s] ([] ++ asked c.stack) := by
    rw [hasked]
    exact .refl [s]
  have hreads (n : Nat) : g.Begins (asked c.stack) (c.tokens.kinds n) := by
    rw [hasked, TokenStream.kinds_of_rest_eq_nil rfl, hg.begins_replicate_iff]
    exact h n
  have hbalanced : c.Balanced g := by
    refine ⟨Nat.zero_le _, fun r hr => ?_⟩
    rw [StackEntry.symbol.inj (List.mem_singleton.mp hr)]
    exact Grammar.lt_length_of_isNonTerminal hs
  rcases exists_matches_or_stops hg htable c 1 with ⟨c', hmatches⟩ | ⟨o, hstops⟩
  · obtain ⟨w, hw, hspell, hderives⟩ := hmatches.exists_word hg
    obtain ⟨t, rfl, hname⟩ := List.map_eq_singleton_iff.mp hspell
    obtain rfl := hg.eq_endMark_of_nameOf (hw t List.mem_cons_self) hname
    have hrest : c'.tokens.rest = [] := by
      rw [hmatches.tokens_eq hg]
      rfl
    have hendless : g.Endless (asked c'.stack) := by
      refine hg.endless_of_begins fun n => ?_
      rw [← TokenStream.kinds_of_rest_eq_nil hrest]
      exact hd.begins_of_matches hanchors hstart hmatches (hreads (1 + (n + 1)))
    obtain ⟨before, r, after, j, hform, hbefore, hr⟩ := hendless.exists_append
    refine ⟨r, ⟨j, after, ?_⟩, hr⟩
    rw [hasked, hform] at hderives
    exact hderives.trans ((Grammar.Derives.refl [endMarkId]).append (hbefore.append (.refl _)))
  · obtain ⟨m, hstops⟩ := stops_iff_exists_stopsAfter.mp hstops
    exact absurd (hreads (m + 1))
      (hd.not_begins_of_stopsAfter hanchors hsets htable hbalanced hstart hstops)

/-- **An endless symbol leads to one that comes back**, and there are end marks only in between. -/
theorem Sets.Decides.exists_feeds_self (hd : sets.Decides g table) (hsets : g.sets = .ok sets)
    (htable : g.predictiveTable policy = .ok table) (h : g.Endless [s]) :
    ∃ r, (r = s ∨ g.Feeds s r) ∧ g.Feeds r r := by
  by_contra hnone
  let Reached := { r : SymbolId // (r = s ∨ g.Feeds s r) ∧ g.Endless [r] }
  have hfinite : Finite Reached := by
    have hlt (r : Reached) : r.1 < g.symbols.length :=
      Grammar.lt_length_of_isNonTerminal (r.2.2.isNonTerminal hd.wellFormed)
    exact Finite.of_injective (fun r => (⟨r.1, hlt r⟩ : Fin g.symbols.length))
      fun r r' h => Subtype.ext (Fin.mk.inj h)
  let Fed (r r' : Reached) : Prop := g.Feeds r'.1 r.1
  have htrans : IsTrans Reached Fed := ⟨fun _ _ _ h h' => h'.trans h⟩
  have hirrefl : Std.Irrefl Fed := ⟨fun r h => hnone ⟨r.1, r.2.1, h⟩⟩
  have hwf : WellFounded Fed := Finite.wellFounded_of_trans_of_irrefl Fed
  -- but each of them feeds one more
  have hfalse (r : Reached) : False := by
    induction r using hwf.induction with
    | _ r ih =>
      obtain ⟨t, hfeeds, ht⟩ := hd.exists_feeds hsets htable r.2.2
      refine ih ⟨t, Or.inr ?_, ht⟩ hfeeds
      exact r.2.1.elim (fun heq => heq ▸ hfeeds) fun hr => hr.trans hfeeds
  exact hfalse ⟨s, Or.inl rfl, h⟩

/-! ## Which parses come to an end -/

namespace Grammar.WellFormed

variable (hg : g.WellFormed) (htable : g.predictiveTable policy = .ok table)

include hg htable

/-- **A parse comes to an end exactly when some of the kinds to come cannot be read.** -/
theorem exists_parseFrom_iff {set : List SymbolId} (hset : g.followOf x = .ok set)
    (hend : endMarkId ∈ set) : (∃ o, g.parseFrom table x tokens = some o) ↔
      ∃ n, ¬ g.ViablePrefix x (tokens.kinds n) := by
  constructor
  · rintro ⟨o, h⟩
    obtain ⟨m, hstops⟩ := stops_iff_exists_stopsAfter.mp (hg.parseFrom_eq_some_iff.mp h)
    exact ⟨m + 1, hg.not_viablePrefix_of_stopsAfter htable hset hend hstops⟩
  · rintro ⟨n, hn⟩
    rcases exists_matches_or_stops hg htable (.initial x tokens) n with ⟨c, hmatches⟩ | ⟨o, hstops⟩
    · exact absurd (hg.viablePrefix_of_matches hset hmatches) hn
    · exact ⟨o, hg.parseFrom_eq_some_iff.mpr hstops⟩

omit htable in
/-- The derivation back to a non-terminal can be repeated, so any number of end marks can be read
after the word before it. -/
theorem viablePrefix_of_feeds {u rest : List SymbolId} {a : SymbolId} (hu : g.IsWord u)
    (hform : g.Derives [x] (u ++ a :: rest)) (hfeeds : g.Feeds a a) (n : Nat) :
    g.ViablePrefix x ((TokenStream.ofList (u.map fun s => ⟨g.nameOf s, none⟩)).kinds n) := by
  obtain ⟨behind, hderives⟩ := hfeeds.endless n
  have hkinds : (u.map fun s => (⟨g.nameOf s, none⟩ : Token)).map Token.kind = g.spell u := by
    rw [List.map_map]
    rfl
  rw [TokenStream.kinds, TokenStream.ofList, hkinds]
  refine Begins.take ⟨u ++ List.replicate n endMarkId, behind ++ rest ++ [endMarkId], ?_, ?_, ?_⟩ n
  · exact List.forall_mem_append.mpr ⟨hu, hg.isWord_replicate_endMark n⟩
  · rw [spell, List.map_append, List.map_replicate, hg.nameOf_endMark]
    rfl
  · have hinner := (hform.trans (by simpa using hderives.context u rest)).context [] [endMarkId]
    simpa using hinner

/-- Where a parser never stops, a non-terminal leads back to itself. -/
theorem endMarkRecursive_of_viablePrefix {set : List SymbolId} (hset : g.followOf x = .ok set)
    (hend : endMarkId ∈ set) (hviable : ∀ n, g.ViablePrefix x (tokens.kinds n)) :
    g.EndMarkRecursive x := by
  obtain ⟨sets, hsets, hd⟩ := hg.exists_decides htable
  rcases exists_matches_or_stops hg htable (.initial x tokens) tokens.rest.length with
    ⟨c, hmatches⟩ | ⟨o, hstops⟩
  · have hrest : c.tokens.rest = [] := by
      rw [hmatches.tokens_eq hg, TokenStream.rest_pop_iterate]
      exact List.drop_length
    have hendless : g.Endless (asked c.stack) := by
      refine hg.endless_of_begins fun n => ?_
      rw [← TokenStream.kinds_of_rest_eq_nil hrest]
      exact hg.begins_of_viablePrefix htable hset hend hmatches (hviable _)
    obtain ⟨before, s, after, j, hform, hbefore, hs⟩ := hendless.exists_append
    obtain ⟨r, hr, hself⟩ := hd.exists_feeds_self hsets htable hs
    obtain ⟨w, hw, -, hderives⟩ := hmatches.exists_word hg
    rw [hg.asked_initial_eq hset, hform] at hderives
    have hword : g.IsWord (w ++ List.replicate j endMarkId) :=
      List.forall_mem_append.mpr ⟨hw, hg.isWord_replicate_endMark j⟩
    have hreach : g.Derives [x, endMarkId] ((w ++ List.replicate j endMarkId) ++ s :: after) := by
      rw [List.append_assoc]
      exact hderives.trans ((Derives.refl w).append (hbefore.append (.refl _)))
    obtain ⟨rest, -, hinner⟩ := hg.exists_derives_of_endMark (hs.isNonTerminal hg) hreach
    rcases hr with rfl | ⟨k, behind, hfeeds⟩
    · exact ⟨_, r, rest, hword, hinner, hself⟩
    · refine ⟨(w ++ List.replicate j endMarkId) ++ List.replicate (k + 1) endMarkId, r,
        behind ++ rest, List.forall_mem_append.mpr ⟨hword, hg.isWord_replicate_endMark (k + 1)⟩,
        hinner.trans ?_, hself⟩
      simpa only [List.append_assoc, List.cons_append, List.nil_append] using
        hfeeds.context (w ++ List.replicate j endMarkId) rest
  · obtain ⟨n, hn⟩ := (hg.exists_parseFrom_iff htable hset hend).mp
      ⟨o, hg.parseFrom_eq_some_iff.mpr hstops⟩
    exact absurd (hviable n) hn

/-- **Every parse comes to an end exactly when no non-terminal leads back to itself behind end marks
alone.** -/
theorem forall_exists_parseFrom_iff {set : List SymbolId} (hset : g.followOf x = .ok set)
    (hend : endMarkId ∈ set) :
    (∀ tokens, ∃ o, g.parseFrom table x tokens = some o) ↔ ¬ g.EndMarkRecursive x := by
  constructor
  · rintro hhalts ⟨u, a, rest, hu, hform, hfeeds⟩
    obtain ⟨n, hn⟩ := (hg.exists_parseFrom_iff htable hset hend).mp (hhalts _)
    exact hn (hg.viablePrefix_of_feeds hu hform hfeeds n)
  · intro hnone tokens
    refine (hg.exists_parseFrom_iff htable hset hend).mpr (by_contra fun hviable => hnone ?_)
    exact hg.endMarkRecursive_of_viablePrefix htable hset hend (not_exists_not.mp hviable)

omit htable in
/-- The end mark can come after the start symbol. -/
theorem exists_followOf_start : ∃ set, g.followOf g.start = .ok set ∧ endMarkId ∈ set := by
  obtain ⟨sets, hs, -, hset⟩ := hg.followOf_eq_ok hg.start_nonTerminal
  exact ⟨sets.followOf g.start, hset, hs.endMark_mem_followOf_start hg⟩

end Grammar.WellFormed

namespace Grammar

/-! ### A grammar that asks for end marks without end -/

/-- The grammar `S -> $ S | a | b | c`. -/
def unending : Grammar :=
  ⟨[.epsilon, .endMark, .nonTerminal "S" [[1, 2], [3], [4], [5]], .terminal "a", .terminal "b",
    .terminal "c"], 2, [⟨1, 2, 0, [1, 2]⟩, ⟨2, 2, 1, [3]⟩, ⟨3, 2, 2, [4]⟩, ⟨4, 2, 3, [5]⟩]⟩

theorem ofText_unending : ofText "S -> $ S | a | b | c" = .ok unending :=
  rfl

/-- The table of `unending`. -/
def unendingTable : PredictiveTable :=
  ⟨[(⟨2, endMarkId⟩, 1), (⟨2, 3⟩, 2), (⟨2, 4⟩, 3), (⟨2, 5⟩, 4)]⟩

theorem unending_predictiveTable : unending.predictiveTable .failFast = .ok unendingTable :=
  rfl

/-- Behind an end mark the start symbol comes back. -/
theorem unending_feeds : unending.Feeds 2 2 :=
  ⟨0, [], derives_of_mem (p := ⟨1, 2, 0, [1, 2]⟩) List.mem_cons_self⟩

/-- **A parse of a grammar that is loaded and has a table need not come to an end**: without a
token, `unending` takes end marks for ever. -/
theorem not_halting_unending : ofText "S -> $ S | a | b | c" = .ok unending ∧
    unending.predictiveTable .failFast = .ok unendingTable ∧
      (¬ ∃ o, Stops unending unendingTable (.initial unending.start (.ofList [])) o) ∧
        unending.parse unendingTable (.ofList []) = none := by
  have hg := (built_of_ofText ofText_unending).wellFormed
  obtain ⟨set, hset, hend⟩ := hg.exists_followOf_start
  have hnone : ¬ ∃ o, unending.parseFrom unendingTable unending.start (.ofList []) = some o := by
    rw [hg.exists_parseFrom_iff unending_predictiveTable hset hend]
    rintro ⟨n, hn⟩
    exact hn (hg.viablePrefix_of_feeds (u := []) (fun _ h => absurd h List.not_mem_nil) (.refl [2])
      unending_feeds n)
  refine ⟨ofText_unending, unending_predictiveTable, fun ⟨o, ho⟩ => hnone ⟨o, ?_⟩, ?_⟩
  · exact hg.parseFrom_eq_some_iff.mpr ho
  · exact Option.eq_none_iff_forall_ne_some.mpr fun o ho => hnone ⟨o, ho⟩

/-- **Which parses of a loaded grammar come to an end.**  With the table of the grammar, the parse
of a stream does exactly when some of the kinds to come, end marks after the last token included,
cannot be read from the start symbol and an end mark after it.  All parses do exactly when no
non-terminal that can be reached behind a word leads back to itself behind end marks alone. -/
theorem ofText_halts_iff {text : String} (hload : ofText text = .ok g)
    (htable : g.predictiveTable policy = .ok table) :
    (∀ tokens, (∃ o, g.parse table tokens = some o) ↔
      ∃ n, ¬ g.ViablePrefix g.start (tokens.kinds n)) ∧
    ((∀ tokens, ∃ o, g.parse table tokens = some o) ↔ ¬ g.EndMarkRecursive g.start) := by
  have hg := (built_of_ofText hload).wellFormed
  obtain ⟨set, hset, hend⟩ := hg.exists_followOf_start
  exact ⟨fun tokens => hg.exists_parseFrom_iff htable hset hend,
    hg.forall_exists_parseFrom_iff htable hset hend⟩

theorem ofText_halts_iff_unending :
    (∀ tokens, (∃ o, unending.parse unendingTable tokens = some o) ↔
      ∃ n, ¬ unending.ViablePrefix unending.start (tokens.kinds n)) ∧
    ((∀ tokens, ∃ o, unending.parse unendingTable tokens = some o) ↔
      ¬ unending.EndMarkRecursive unending.start) :=
  ofText_halts_iff ofText_unending unending_predictiveTable

end Grammar

end GrammarTables
