import GrammarTables.Proofs.Grammar.Leftmost
import GrammarTables.Proofs.Predictive.Matches

/-!
# Proofs/Predictive/Prefix — the parser stops at the first token that cannot come next

The symbols on the stack are a sentential form (`asked`).  What can still be read there is what
begins a form derived from them (`Grammar.Begins`), and this stays the same along a run:

* a quiet step keeps it (`Sets.Decides.begins_of_quietStep`).  This is where the table comes in: a
  form that begins with the lookahead is reached through a production that predicts the lookahead,
  and the table has no other one.  FOLLOW enters with the erased right sides, so the stack must be
  part of a form of the start (`Sets.Settled.Anchors`);
* a match takes its literal off both.

An error says that nothing which begins with the next token can be read, so before the literals
matched up to there it was impossible as well (`Grammar.Built.unexpected_token_exact`).
-/

namespace GrammarTables

variable {g : Grammar} {table : PredictiveTable} {policy : ConflictPolicy} {sets : Sets}
  {tokens : TokenStream} {c c' c'' : Config} {o : Outcome} {p : Production} {s t x : SymbolId}
  {form : List SymbolId} {name : String} {names : List String} {m n : Nat}

/-! ## What a form can begin with -/

/-- The names are those of the literals that something derived from the form begins with. -/
def Grammar.Begins (g : Grammar) (form : List SymbolId) (names : List String) : Prop :=
  ∃ w rest, g.IsWord w ∧ g.spell w = names ∧ g.Derives form (w ++ rest)

/-- The names can be read from the symbol `x` and an end mark after it. -/
def Grammar.ViablePrefix (g : Grammar) (x : SymbolId) (names : List String) : Prop :=
  g.Begins [x, endMarkId] names

namespace Grammar

/-- The first of several names is that of a literal. -/
theorem Begins.exists_cons (h : g.Begins form (name :: names)) :
    ∃ t w rest, g.isLiteral t ∧ g.nameOf t = name ∧ g.IsWord w ∧ g.spell w = names ∧
      g.Derives form (t :: (w ++ rest)) := by
  obtain ⟨w, rest, hw, hspell, hderives⟩ := h
  obtain ⟨t, w, rfl, hname, hspell⟩ := List.map_eq_cons_iff.mp hspell
  exact ⟨t, w, rest, hw t List.mem_cons_self, hname,
    fun r hr => hw r (List.mem_cons_of_mem t hr), hspell, hderives⟩

/-- Nothing can be read where nothing is asked for. -/
theorem not_begins_nil_cons : ¬ g.Begins [] (name :: names) := by
  intro h
  obtain ⟨t, w, rest, -, -, -, -, hderives⟩ := h.exists_cons
  exact List.cons_ne_nil _ _ (derives_nil_iff.mp hderives)

/-- **A literal in front is read first.** -/
theorem WellFormed.begins_cons_iff (hg : g.WellFormed) (hs : g.isLiteral s) :
    g.Begins (s :: form) (name :: names) ↔ name = g.nameOf s ∧ g.Begins form names := by
  constructor
  · intro h
    obtain ⟨t, w, rest, -, hname, hw, hspell, hderives⟩ := h.exists_cons
    obtain ⟨rest', hcons, hderives⟩ := (hg.derives_cons_iff_of_isLiteral hs).mp hderives
    obtain ⟨rfl, rfl⟩ := List.cons.inj hcons
    exact ⟨hname.symm, w, rest, hw, hspell, hderives⟩
  · rintro ⟨rfl, w, rest, hw, rfl, hderives⟩
    exact ⟨s :: w, rest, List.forall_mem_cons.mpr ⟨hs, hw⟩, rfl,
      (hg.derives_cons_iff_of_isLiteral hs).mpr ⟨w ++ rest, rfl, hderives⟩⟩

end Grammar

/-! ## FOLLOW where a run starts -/

namespace Sets.Settled

open Grammar

/-- What a form derived from `form` can have after a non-terminal is in FOLLOW of it. -/
def Anchors (g : Grammar) (sets : Sets) (form : List SymbolId) : Prop :=
  ∀ before s rest t, g.Derives form (before ++ s :: rest) → g.isNonTerminal s →
    t ∈ sets.firstOf g rest → t ∈ sets.followOf s

variable (hs : sets.Settled g) (hg : g.WellFormed)

include hs hg

theorem anchors_singleton (x : SymbolId) : Anchors g sets [x] :=
  fun before s rest t hform hnonTerminal ht =>
    hs.mem_followOf_of_derives hg hform before s rest t rfl hnonTerminal (Or.inl ht)

/-- What can come after a symbol can come after whatever ends a form of it. -/
theorem mem_followOf_of_ends {before rest : List SymbolId} (hx : g.isNonTerminal x)
    (ht : t ∈ sets.followOf x) (hform : g.Derives [x] (before ++ s :: rest))
    (hnonTerminal : g.isNonTerminal s) (hrest : sets.nullableAll rest) : t ∈ sets.followOf s := by
  obtain ⟨hliteral, hafter⟩ := (hs.mem_followOf_iff hg hx).mp ht
  rcases hafter with ⟨y, front, after, -, houter⟩ | ⟨rfl, front, houter⟩
  · have hinner := hform.context front (t :: after)
    have hwhole : g.Derives [y] (front ++ (before ++ s :: rest) ++ t :: after) :=
      houter.trans (by simpa using hinner)
    refine hs.mem_followOf_of_derives hg hwhole (front ++ before) s (rest ++ t :: after) t (by simp)
      hnonTerminal (Or.inl ?_)
    rw [hs.mem_firstOf_append hg, firstOf_cons_of_isLiteral hliteral]
    exact Or.inr ⟨hrest, List.mem_cons_self⟩
  · have hinner := hform.context front []
    have hwhole : g.Derives [g.start] (front ++ (before ++ s :: rest)) :=
      houter.trans (by simpa using hinner)
    exact hs.mem_followOf_of_derives hg hwhole (front ++ before) s rest endMarkId (by simp)
      hnonTerminal (Or.inr ⟨hrest, rfl, rfl⟩)

/-- A parse from a symbol that the end mark can come after. -/
theorem anchors_endMark (hx : g.isNonTerminal x) (hend : endMarkId ∈ sets.followOf x) :
    Anchors g sets [x, endMarkId] := by
  intro before s rest t hform hnonTerminal ht
  obtain ⟨rest, rfl, hinner⟩ := hg.exists_derives_of_endMark hnonTerminal hform
  rw [hs.mem_firstOf_append hg, firstOf_cons_of_isLiteral hg.isLiteral_endMark,
    List.mem_singleton] at ht
  rcases ht with ht | ⟨hrest, rfl⟩
  · exact hs.anchors_singleton hg x before s rest t hinner hnonTerminal ht
  · exact hs.mem_followOf_of_ends hg hx hend hinner hnonTerminal hrest

end Sets.Settled

/-! ## The form on the stack -/

/-- What an entry asks for. -/
def StackEntry.asks : StackEntry → List SymbolId
  | symbol s => visible [s]
  | epsilon => []
  | ascend => []

/-- The form that a stack asks for. -/
def asked (stack : List StackEntry) : List SymbolId :=
  stack.flatMap StackEntry.asks

@[simp]
theorem asked_cons {entry : StackEntry} {stack : List StackEntry} :
    asked (entry :: stack) = entry.asks ++ asked stack :=
  rfl

theorem StackEntry.asks_ofSymbol : (StackEntry.ofSymbol s).asks = visible [s] := by
  rw [ofSymbol]
  split
  · next h => rw [h]; rfl
  · rfl

/-- An expanded right side. -/
theorem asked_map_append {w : List SymbolId} {stack : List StackEntry} :
    asked (w.map .ofSymbol ++ stack) = visible w ++ asked stack := by
  induction w with
  | nil => rfl
  | cons s w ih =>
    rw [List.map_cons, List.cons_append, asked_cons, StackEntry.asks_ofSymbol, ih,
      visible_cons (w := w), List.append_assoc]

/-- The empty string and the end of a branch ask for nothing. -/
theorem StackEntry.asks_eq_nil {entry : StackEntry} (h : ∀ s, entry = .symbol s → s = epsilonId) :
    entry.asks = [] := by
  cases entry with
  | symbol s => rw [h s rfl]; rfl
  | epsilon => rfl
  | ascend => rfl

theorem StackEntry.asks_symbol (h : s ≠ epsilonId) : (StackEntry.symbol s).asks = [s] :=
  visible_cons_of_ne h

theorem asked_initial (hx : x ≠ epsilonId) (tokens : TokenStream) :
    asked (Config.initial x tokens).stack = [x, endMarkId] := by
  rw [Config.initial, asked_cons, StackEntry.asks_symbol hx]
  rfl

/-! ## What can be read stays the same -/

section Run

variable (hg : g.WellFormed)

include hg

/-- **A quiet step takes no token, and it keeps the form or uses a production at its front.** -/
theorem QuietStep.asked_eq (h : QuietStep g table c c') : c'.tokens = c.tokens ∧
    (asked c.stack = asked c'.stack ∨ ∃ p ∈ g.productions, ∃ form, asked c.stack = p.left :: form ∧
      asked c'.stack = visible p.right ++ form ∧
      (c.tokens.lookahead? g).bind (table.get? p.left) = some p.ordinal) := by
  obtain ⟨htokens, ⟨entry, hstack, hentry⟩ | ⟨p, hp, below, hstack, hcell, hstack'⟩⟩ := h.effect hg
  · refine ⟨htokens, Or.inl ?_⟩
    rw [hstack, asked_cons, StackEntry.asks_eq_nil hentry, List.nil_append]
  · refine ⟨htokens, Or.inr ⟨p, hp, asked below, ?_, ?_, hcell⟩⟩
    · rw [hstack, asked_cons, StackEntry.asks_symbol (hg.left_ne_epsilon hp)]
      rfl
    · rw [hstack', asked_map_append]
      rfl

/-- The form on the stack after a quiet step is derived from the one before it. -/
theorem QuietStep.derives_asked (h : QuietStep g table c c') :
    g.Derives (asked c.stack) (asked c'.stack) := by
  rcases (h.asked_eq hg).2 with hasked | ⟨p, hp, form, hasked, hasked', -⟩
  · rw [hasked]
    exact .refl _
  · rw [hasked, hasked']
    exact (Grammar.derives_of_mem hp).append (.refl form)

/-- A match takes the literal in front of the form. -/
theorem MatchStep.asked_eq (h : MatchStep g table c c') :
    ∃ s, asked c.stack = s :: asked c'.stack ∧ g.isLiteral s ∧ c.tokens.peek.kind = g.nameOf s ∧
      c'.tokens = c.tokens.pop := by
  obtain ⟨s, hstack, hs, hkind, htokens⟩ := h.effect hg
  refine ⟨s, ?_, hs, hkind, htokens⟩
  rw [hstack, asked_cons, StackEntry.asks_symbol (hg.ne_epsilon_of_isLiteral hs)]
  rfl

/-- **The literals of a run are a word**, and with the form on the stack behind it they make a form
of what was asked for at first. -/
theorem Matches.exists_word (h : Matches g table c m c') : ∃ w, g.IsWord w ∧
    g.spell w = c.tokens.kinds m ∧ g.Derives (asked c.stack) (w ++ asked c'.stack) := by
  induction h with
  | refl => exact ⟨[], fun _ h => absurd h List.not_mem_nil, rfl, .refl _⟩
  | quiet hstep _ ih =>
    obtain ⟨w, hw, hspell, hderives⟩ := ih
    rw [(hstep.effect hg).1] at hspell
    exact ⟨w, hw, hspell, (hstep.derives_asked hg).trans hderives⟩
  | literal hstep _ ih =>
    obtain ⟨w, hw, hspell, hderives⟩ := ih
    obtain ⟨s, hasked, hs, hkind, htokens⟩ := hstep.asked_eq hg
    refine ⟨s :: w, List.forall_mem_cons.mpr ⟨hs, hw⟩, ?_, ?_⟩
    · rw [TokenStream.kinds_succ, ← htokens, ← hspell, hkind]
      rfl
    · rw [hasked]
      exact (Grammar.Derives.refl [s]).append hderives

/-- What has been matched could be read. -/
theorem Matches.begins (h : Matches g table c m c') :
    g.Begins (asked c.stack) (c.tokens.kinds m) := by
  obtain ⟨w, hw, hspell, hderives⟩ := h.exists_word hg
  exact ⟨w, _, hw, hspell, hderives⟩

/-- The form on the stack stays the end of a form of the start. -/
theorem Matches.exists_derives_append (h : Matches g table c m c') {before : List SymbolId}
    (hform : g.Derives form (before ++ asked c.stack)) :
    ∃ before', g.Derives form (before' ++ asked c'.stack) := by
  obtain ⟨w, -, -, hderives⟩ := h.exists_word hg
  refine ⟨before ++ w, hform.trans ?_⟩
  rw [List.append_assoc]
  exact (Grammar.Derives.refl before).append hderives

end Run

namespace Sets.Decides

variable (hd : sets.Decides g table)

include hd

/-- **A name that can be read from a non-terminal is predicted by one of its productions**, and it
can be read from the right side. -/
theorem exists_mem_predict_of_begins (hs : g.isNonTerminal s)
    (hfollow : ∀ t ∈ sets.firstOf g form, t ∈ sets.followOf s)
    (h : g.Begins (s :: form) (name :: names)) :
    ∃ p ∈ g.productions, p.left = s ∧ g.Begins (visible p.right ++ form) (name :: names) ∧
      ∃ t ∈ sets.predict g p.left p.right, g.isLiteral t ∧ g.nameOf t = name := by
  obtain ⟨t, w, rest, ht, rfl, hw, rfl, hderives⟩ := h.exists_cons
  have hne : s ≠ t := by
    rintro rfl
    rw [Grammar.isNonTerminal_eq_false_of_isLiteral ht] at hs
    exact nomatch hs
  obtain ⟨p, hp, rfl, hright⟩ := hderives.exists_production_of_cons hne
  refine ⟨p, hp, rfl, ⟨t :: w, rest, List.forall_mem_cons.mpr ⟨ht, hw⟩, rfl, hright⟩, t, ?_, ht,
    rfl⟩
  have hfirst : t ∈ sets.firstOf g (visible p.right ++ form) := by
    refine hd.settled.mem_firstOf_of_derives hd.wellFormed hright ?_
    rw [Settled.firstOf_cons_of_isLiteral ht]
    exact List.mem_cons_self
  rw [hd.settled.mem_firstOf_append hd.wellFormed, hd.settled.mem_firstOf_visible hd.wellFormed,
    hd.settled.nullableAll_visible] at hfirst
  exact mem_firstOrFollow.mpr (hfirst.imp_right (And.imp_right (hfollow t)))

variable {start before : List SymbolId} (hanchors : Settled.Anchors g sets start)

include hanchors

/-- **A quiet step keeps what can be read.** -/
theorem begins_of_quietStep (hform : g.Derives start (before ++ asked c.stack))
    (hstep : QuietStep g table c c')
    (h : g.Begins (asked c.stack) (c.tokens.peek.kind :: names)) :
    g.Begins (asked c'.stack) (c.tokens.peek.kind :: names) := by
  have hg := hd.wellFormed
  rcases (hstep.asked_eq hg).2 with hasked | ⟨p, hp, form, hasked, hasked', hcell⟩
  · rwa [hasked] at h
  · rw [hasked] at h hform
    have hleft := hg.isNonTerminal_left hp
    obtain ⟨q, hq, hqleft, hbegins, t, ht, hliteral, hname⟩ :=
      hd.exists_mem_predict_of_begins hleft (fun t ht => hanchors _ _ _ t hform hleft ht) h
    have hlookahead : c.tokens.lookahead? g = some t :=
      (TokenStream.lookahead?_eq_some_iff hg).mpr ⟨hliteral, hname.symm⟩
    -- the table has one production for the lookahead
    rw [hlookahead, Option.bind_some, ← hqleft, hd.get?_eq hq ht] at hcell
    obtain rfl := hg.eq_of_ordinal_eq hq hp (Option.some.inj hcell)
    rwa [hasked']

/-- **What could be read at first can still be read where the run has got to.** -/
theorem begins_of_matches (hform : g.Derives start (before ++ asked c.stack))
    (hmatches : Matches g table c m c')
    (h : g.Begins (asked c.stack) (c.tokens.kinds (m + (n + 1)))) :
    g.Begins (asked c'.stack) (c'.tokens.kinds (n + 1)) := by
  have hg := hd.wellFormed
  induction hmatches generalizing before with
  | refl => rwa [Nat.zero_add] at h
  | @quiet c c' c'' m hstep _ ih =>
    have hform' := hform.trans ((Grammar.Derives.refl before).append (hstep.derives_asked hg))
    refine ih hform' ?_
    rw [← Nat.add_assoc, TokenStream.kinds_succ] at h ⊢
    rw [(hstep.effect hg).1]
    exact hd.begins_of_quietStep hanchors hform hstep h
  | @literal c c' c'' m hstep _ ih =>
    obtain ⟨s, hasked, hs, hkind, htokens⟩ := hstep.asked_eq hg
    have hform' : g.Derives start ((before ++ [s]) ++ asked c'.stack) := by
      simpa [hasked] using hform
    refine ih hform' ?_
    rw [hasked, Nat.succ_add, TokenStream.kinds_succ, ← htokens] at h
    exact ((hg.begins_cons_iff hs).mp h).2

omit hanchors

/-- What the table has nothing for cannot be read. -/
theorem not_begins_of_unpredicted (hs : g.isNonTerminal s)
    (hfollow : ∀ t ∈ sets.firstOf g form, t ∈ sets.followOf s)
    (hcell : ∀ t, tokens.lookahead? g = some t → table.get? s t = none) :
    ¬ g.Begins (s :: form) (tokens.peek.kind :: names) := by
  intro h
  obtain ⟨p, hp, rfl, -, t, ht, hliteral, hname⟩ := hd.exists_mem_predict_of_begins hs hfollow h
  have hnone := hcell t
    ((TokenStream.lookahead?_eq_some_iff hd.wellFormed).mpr ⟨hliteral, hname.symm⟩)
  exact nomatch hnone.symm.trans (hd.get?_eq hp ht)

omit hd in
/-- What is not the literal in front cannot be read. -/
theorem not_begins_of_mismatch (hg : g.WellFormed) (hs : g.isLiteral s)
    (ht : tokens.lookahead? g ≠ some s) : ¬ g.Begins (s :: form) (tokens.peek.kind :: names) :=
  fun h => ht ((TokenStream.lookahead?_eq_some_iff hg).mpr ⟨hs, ((hg.begins_cons_iff hs).mp h).1⟩)

include hanchors

/-- **When the parser stops, nothing that begins with the next token can be read.** -/
theorem not_begins_of_stop (hsets : g.sets = .ok sets)
    (htable : g.predictiveTable policy = .ok table) (hc : c.Balanced g)
    (hform : g.Derives start (before ++ asked c.stack)) (hstop : c.step g table = .stop o) :
    ¬ g.Begins (asked c.stack) (c.tokens.kinds 1) := by
  have hg := hd.wellFormed
  rw [TokenStream.kinds_succ]
  rcases hc.stop hg hsets htable hstop with hstack | ⟨s, below, hstack, ⟨hs, hcell⟩ | ⟨hs, ht⟩⟩
  · rw [hstack]
    exact Grammar.not_begins_nil_cons
  · have hasked : asked c.stack = s :: asked below := by
      rw [hstack, asked_cons, StackEntry.asks_symbol (hg.ne_epsilon_of_isNonTerminal hs)]
      rfl
    rw [hasked] at hform ⊢
    exact hd.not_begins_of_unpredicted hs (fun t ht => hanchors _ _ _ t hform hs ht) hcell
  · rw [hstack, asked_cons, StackEntry.asks_symbol (hg.ne_epsilon_of_isLiteral hs)]
    exact not_begins_of_mismatch hg hs ht

/-- **A run that stops has matched all that can be read of the stream.** -/
theorem not_begins_of_stopsAfter (hsets : g.sets = .ok sets)
    (htable : g.predictiveTable policy = .ok table) (hc : c.Balanced g)
    (hform : g.Derives start (before ++ asked c.stack)) (hstops : StopsAfter g table c m o) :
    ¬ g.Begins (asked c.stack) (c.tokens.kinds (m + 1)) := by
  obtain ⟨c', hmatches, hstop⟩ := hstops
  intro h
  obtain ⟨before', hform'⟩ := hmatches.exists_derives_append hd.wellFormed hform
  exact hd.not_begins_of_stop hanchors hsets htable (hmatches.balanced hd.wellFormed hc) hform'
    hstop (hd.begins_of_matches hanchors hform hmatches h)

end Sets.Decides

/-! ## The error of a parser -/

namespace Grammar.WellFormed

variable (hg : g.WellFormed) (htable : g.predictiveTable policy = .ok table)
  {set : List SymbolId} (hset : g.followOf x = .ok set) (hend : endMarkId ∈ set)

include hg htable hset hend

/-- A parse from a symbol that the end mark can come after starts where FOLLOW is known. -/
theorem exists_anchors (tokens : TokenStream) : ∃ sets, g.sets = .ok sets ∧ sets.Decides g table ∧
    Sets.Settled.Anchors g sets [x, endMarkId] ∧ (Config.initial x tokens).Balanced g ∧
      g.Derives [x, endMarkId] ([] ++ asked (Config.initial x tokens).stack) := by
  obtain ⟨sets, hsets, hd⟩ := hg.exists_decides htable
  have hx := isNonTerminal_of_followOf_eq_ok hset
  have hfollow := (hg.mem_followOf_iff_exists hsets hx).mpr ⟨set, hset, hend⟩
  refine ⟨sets, hsets, hd, hd.settled.anchors_endMark hg hx hfollow,
    Config.balanced_initial hg hx tokens, ?_⟩
  rw [asked_initial (hg.ne_epsilon_of_isNonTerminal hx)]
  exact .refl _

omit htable hend in
theorem asked_initial_eq (tokens : TokenStream) :
    asked (Config.initial x tokens).stack = [x, endMarkId] :=
  asked_initial (hg.ne_epsilon_of_isNonTerminal (isNonTerminal_of_followOf_eq_ok hset)) tokens

omit htable hend in
/-- What a run has matched could be read. -/
theorem viablePrefix_of_matches (hmatches : Matches g table (.initial x tokens) m c) :
    g.ViablePrefix x (tokens.kinds m) := by
  rw [ViablePrefix, ← hg.asked_initial_eq hset tokens]
  exact hmatches.begins hg

/-- What could be read at first can still be read later. -/
theorem begins_of_viablePrefix (hmatches : Matches g table (.initial x tokens) m c)
    (h : g.ViablePrefix x (tokens.kinds (m + (n + 1)))) :
    g.Begins (asked c.stack) (c.tokens.kinds (n + 1)) := by
  obtain ⟨sets, -, hd, hanchors, -, hstart⟩ := hg.exists_anchors htable hset hend tokens
  rw [ViablePrefix, ← hg.asked_initial_eq hset tokens] at h
  exact hd.begins_of_matches hanchors hstart hmatches h

/-- A parser stops only where the next token cannot come. -/
theorem not_viablePrefix_of_stopsAfter (hstops : StopsAfter g table (.initial x tokens) m o) :
    ¬ g.ViablePrefix x (tokens.kinds (m + 1)) := by
  obtain ⟨sets, hsets, hd, hanchors, hbalanced, hstart⟩ :=
    hg.exists_anchors htable hset hend tokens
  rw [ViablePrefix, ← hg.asked_initial_eq hset tokens]
  exact hd.not_begins_of_stopsAfter hanchors hsets htable hbalanced hstart hstops

end Grammar.WellFormed

/-- **The parser stops at the first token that cannot come next.**  From a non-terminal that the end
mark can come after, and with the table of the grammar: when the parser reports an unexpected token
after it has matched `m` literals, these can be read from the non-terminal and an end mark after it,
and with the token that is reported they cannot.  The cursor and the reported position stand before
this token, or at the end of the stream when its tokens have run out. -/
theorem Grammar.Built.unexpected_token_exact (hg : g.Built)
    (htable : g.predictiveTable policy = .ok table) {set : List SymbolId}
    (hset : g.followOf x = .ok set) (hend : endMarkId ∈ set) {tokens rest : TokenStream}
    {position : Nat} {expected : Expected} {found : String}
    (h : g.parseFrom table x tokens =
      some ⟨.error (.unexpectedToken position expected found), rest⟩) :
    (∃ m, StopsAfter g table (.initial x tokens) m
      ⟨.error (.unexpectedToken position expected found), rest⟩) ∧
    ∀ m, StopsAfter g table (.initial x tokens) m
        ⟨.error (.unexpectedToken position expected found), rest⟩ →
      g.ViablePrefix x (tokens.kinds m) ∧ ¬ g.ViablePrefix x (tokens.kinds (m + 1)) ∧
        tokens.kinds (m + 1) = tokens.kinds m ++ [found] ∧
        position = min (tokens.position + m) (tokens.position + tokens.rest.length) ∧
        rest.position = min (tokens.position + m) (tokens.position + tokens.rest.length) := by
  have hwell := hg.wellFormed
  refine ⟨stops_iff_exists_stopsAfter.mp (hwell.parseFrom_eq_some_iff.mp h), ?_⟩
  rintro m hstops
  have hnot := hwell.not_viablePrefix_of_stopsAfter htable hset hend hstops
  obtain ⟨c, hmatches, hstop⟩ := hstops
  obtain ⟨hposition, hfound⟩ := Config.eq_peek_of_unexpected hwell hstop rfl
  have htokens : rest = c.tokens := Config.tokens_of_stop hwell hstop
  have hpops : c.tokens = TokenStream.pop^[m] tokens := hmatches.tokens_eq hwell
  have hcursor : c.tokens.position =
      min (tokens.position + m) (tokens.position + tokens.rest.length) := by
    rw [hpops]
    exact TokenStream.position_pop_iterate
  refine ⟨hwell.viablePrefix_of_matches hset hmatches, hnot, ?_,
    hposition.trans hcursor, htokens ▸ hcursor⟩
  rw [TokenStream.kinds_succ', hfound, hpops]

theorem Grammar.unexpected_token_exact_nested :
    let tokens := TokenStream.mk 3 [⟨"a", none⟩, ⟨"b", none⟩, ⟨"b", none⟩]
    let o : Outcome := ⟨.error (.unexpectedToken 5 (.terminal "$") "b"), ⟨5, [⟨"b", none⟩]⟩⟩
    nested.parseFrom nestedTable 2 tokens = some o ∧
    (∃ m, StopsAfter nested nestedTable (.initial 2 tokens) m o) ∧
    ∀ m, StopsAfter nested nestedTable (.initial 2 tokens) m o →
      nested.ViablePrefix 2 (tokens.kinds m) ∧ ¬ nested.ViablePrefix 2 (tokens.kinds (m + 1)) ∧
        tokens.kinds (m + 1) = tokens.kinds m ++ ["b"] ∧
        5 = min (tokens.position + m) (tokens.position + tokens.rest.length) ∧
        o.tokens.position = min (tokens.position + m) (tokens.position + tokens.rest.length) := by
  intro tokens o
  have h : nested.parseFrom nestedTable 2 tokens = some o :=
    nested_built.wellFormed.parseFrom_eq_some_iff.mpr ⟨12, rfl⟩
  have hset : nested.followOf 2 = .ok [endMarkId, 4] := rfl
  exact ⟨h, nested_built.unexpected_token_exact nested_predictiveTable hset List.mem_cons_self h⟩

end GrammarTables
