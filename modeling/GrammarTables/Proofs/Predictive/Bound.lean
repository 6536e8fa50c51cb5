import GrammarTables.Proofs.Predictive.Run
import Mathlib.Data.Finset.Card
import Mathlib.Order.Monotone.Basic
import Mathlib.Tactic.Ring

/-!
# Proofs/Predictive/Bound — every parse that stops does so within the step bound

While no token leaves the stream, what the parser does with an entry depends on the entry alone
(`turn`): it is done with it, opens the branch of one production, or jams — stops or takes a token.
`verdict depth` follows the branches `depth` deep.  A deeper look can only tell more, and each level
that tells no more than the one above it is the last that does, so the number of symbols is deep
enough (`verdict_stabilises`).

A parse is then cut into stretches between two tokens.  Each stretch handles the entries that it
finds (`Config.Jams`), and adds those of one line of branches (`run_bound`).
-/

namespace GrammarTables

variable {g : Grammar} {table : PredictiveTable} {tokens : TokenStream} {c c' : Config}
  {o : Outcome} {p : Production} {s : SymbolId} {w : List SymbolId} {below : List StackEntry}

/-! ## Reaching -/

/-- The parser comes from `c` to `c'` in `n` steps. -/
def Reaches (g : Grammar) (table : PredictiveTable) (n : Nat) (c c' : Config) : Prop :=
  ∀ fuel, run g table (n + fuel) c = run g table fuel c'

theorem Reaches.refl (c : Config) : Reaches g table 0 c c := fun fuel => by rw [Nat.zero_add]

/-- Steps add up. -/
theorem Reaches.trans {m n : Nat} {c'' : Config} (h : Reaches g table m c c')
    (h' : Reaches g table n c' c'') : Reaches g table (m + n) c c'' := fun fuel => by
  rw [Nat.add_assoc, h, h']

theorem Reaches.of_next (h : c.step g table = .next c') : Reaches g table 1 c c' := fun fuel => by
  rw [Nat.add_comm, run_succ_of_next h]

/-- What is reached by a run that stops stops in the same way. -/
theorem Reaches.run_eq {m n : Nat} (h : Reaches g table n c c') (hrun : run g table m c = some o) :
    run g table m c' = some o := by
  rw [← h m]
  exact run_mono hrun (Nat.le_add_left m n)

/-! ## What the parser does with an entry -/

/-- What the parser does with an entry while the stream stays as it is. -/
inductive Turn
  /-- The entry is done with in one step. -/
  | pass
  /-- A branch is opened. -/
  | opens (p : Production)
  /-- The parser stops, or takes a token. -/
  | jam

/-- The turn of a symbol. -/
def turn (g : Grammar) (table : PredictiveTable) (tokens : TokenStream) (s : SymbolId) : Turn :=
  if s = epsilonId then .pass
  else if g.isNonTerminal s then
    match ((((tokens.lookahead? g).bind (table.get? s)).bind g.production?).filter
      fun p => p.left = s) with
    | some p => .opens p
    | none => .jam
  else if tokens.lookahead? g = some s ∧ tokens.rest = [] then .pass
  else .jam

/-- An entry for a symbol, in a right side or at the root. -/
def StackEntry.IsFor (s : SymbolId) (entry : StackEntry) : Prop :=
  entry = .symbol s ∨ entry = .epsilon ∧ s = epsilonId

/-- The next step of the parser stops, or takes a token and puts nothing on the stack. -/
def Config.Breaks (g : Grammar) (table : PredictiveTable) (c : Config) : Prop :=
  (∃ o, c.step g table = .stop o) ∨ ∃ c', c.step g table = .next c' ∧ c.tokens.rest ≠ [] ∧
    c'.tokens = c.tokens.pop ∧ c'.stack.length ≤ c.stack.length

/-- The next step of the parser is its turn of the symbol. -/
def Config.Takes (g : Grammar) (table : PredictiveTable) (c : Config) (below : List StackEntry) :
    Turn → Prop
  | .pass => ∃ c', c.step g table = .next c' ∧ c'.stack = below ∧ c'.tokens = c.tokens ∧
      c'.path.length = c.path.length
  | .opens p => p ∈ g.productions ∧ ∃ c', c.step g table = .next c' ∧
      c'.stack = p.right.map .ofSymbol ++ .ascend :: below ∧ c'.tokens = c.tokens ∧
      c'.path.length = c.path.length + 1
  | .jam => c.Breaks g table

theorem StackEntry.isFor_ofSymbol : StackEntry.IsFor s (.ofSymbol s) := by
  rw [ofSymbol]
  split
  · next hs => exact Or.inr ⟨rfl, hs⟩
  · exact Or.inl rfl

theorem StackEntry.IsFor.of_cons {r : SymbolId} {entry : StackEntry} {stack : List StackEntry}
    (h : StackEntry.IsFor s entry) (hc : .symbol r :: stack = entry :: below) :
    r = s ∧ stack = below := by
  obtain ⟨rfl, hstack⟩ := List.cons.inj hc
  exact ⟨StackEntry.symbol.inj (h.resolve_right fun h => nomatch h.1), hstack⟩

theorem StackEntry.not_isFor_ascend : ¬ StackEntry.IsFor s .ascend := fun h =>
  h.elim nofun fun h => nomatch h.1

theorem turn_epsilon : turn g table tokens epsilonId = .pass :=
  if_pos rfl

/-- The cell is that of the lookahead, which stays while no token is taken; so a non-terminal has
the same turn whenever it comes up. -/
theorem turn_of_isNonTerminal (hg : g.WellFormed) (hs : g.isNonTerminal s) :
    turn g table tokens s =
      match ((((tokens.lookahead? g).bind (table.get? s)).bind g.production?).filter
        fun p => p.left = s) with
      | some p => .opens p
      | none => .jam := by
  rw [turn, if_neg (hg.ne_epsilon_of_isNonTerminal hs), if_pos hs]

/-- Past the end of the stream a literal that is the lookahead passes, for taking it leaves the
stream as it is.  Before the end it takes a token. -/
theorem turn_of_isLiteral (hg : g.WellFormed) (hs : g.isLiteral s) :
    turn g table tokens s =
      if tokens.lookahead? g = some s ∧ tokens.rest = [] then .pass else .jam := by
  rw [turn, if_neg (hg.ne_epsilon_of_isLiteral hs), if_neg]
  rw [Grammar.isNonTerminal_eq_false_of_isLiteral hs]
  exact Bool.false_ne_true

/-- A turn opens productions of the grammar only. -/
theorem mem_of_turn_eq_opens (h : turn g table tokens s = .opens p) : p ∈ g.productions := by
  rw [turn] at h
  split at h
  · exact nomatch h
  · split at h
    · split at h
      · next q hq =>
        obtain rfl := Turn.opens.inj h
        obtain ⟨t, -, ht⟩ := Option.bind_eq_some_iff.mp (Option.filter_eq_some_iff.mp hq).1
        exact (Grammar.mem_of_production? ht).1
      · exact nomatch h
    · split at h <;> exact nomatch h

/-- A number that no symbol has stops the parser. -/
theorem turn_of_unknown (hg : g.WellFormed) (hs : g.symbol? s = none) :
    turn g table tokens s = .jam := by
  have hne : s ≠ epsilonId := by
    rintro rfl
    simpa using hs.symm.trans hg.symbol_epsilon
  rw [turn, if_neg hne, if_neg, if_neg]
  · rintro ⟨ht, -⟩
    have hliteral := (TokenStream.kind_peek_of_lookahead? ht).1
    simp [Grammar.isLiteral, hs] at hliteral
  · rw [Grammar.isNonTerminal, hs]
    exact Bool.false_ne_true

/-- A matched literal is passed, or its token leaves the stream. -/
theorem Config.takes_of_consume (hg : g.WellFormed) (hs : g.isLiteral s)
    (ht : c.tokens.lookahead? g = some s) (hstep : c.step g table = .next c')
    (hstack : c'.stack = below) (htokens : c'.tokens = c.tokens.pop)
    (hpath : c'.path.length = c.path.length) (hlength : below.length ≤ c.stack.length) :
    c.Takes g table below (turn g table c.tokens s) := by
  rw [turn_of_isLiteral hg hs]
  by_cases hrest : c.tokens.rest = []
  · rw [if_pos ⟨ht, hrest⟩]
    refine ⟨c', hstep, hstack, ?_, hpath⟩
    rw [htokens, TokenStream.pop, hrest]
  · rw [if_neg fun h => hrest h.2]
    exact Or.inr ⟨c', hstep, hrest, htokens, hstack ▸ hlength⟩

/-- **The step that an entry leads to is the turn of its symbol.** -/
theorem Config.step_turn (hg : g.WellFormed) (table : PredictiveTable) {entry : StackEntry}
    (hs : StackEntry.IsFor s entry) (hc : c.stack = entry :: below) :
    c.Takes g table below (turn g table c.tokens s) := by
  have heffect := Config.step_effect hg table c
  generalize hr : c.step g table = r at heffect
  cases heffect with
  | finish => exact nomatch hc
  | epsilon stack path trees accepted tokens h =>
    obtain ⟨rfl, rfl⟩ := List.cons.inj hc
    obtain rfl : s = epsilonId := by
      rcases hs with rfl | ⟨-, hs⟩
      · exact StackEntry.symbol.inj (h.resolve_left nofun)
      · exact hs
    rw [turn_epsilon]
    exact ⟨_, hr, stack_attach, tokens_attach, length_path_attach⟩
  | ascend | ascendPastRoot =>
    obtain ⟨rfl, -⟩ := List.cons.inj hc
    exact absurd hs StackEntry.not_isFor_ascend
  | unknownSymbol stack path trees accepted tokens h =>
    obtain ⟨rfl, rfl⟩ := hs.of_cons hc
    rw [turn_of_unknown hg h]
    exact Or.inl ⟨_, hr⟩
  | expand p t stack path trees accepted tokens hp ht hcell =>
    obtain ⟨rfl, rfl⟩ := hs.of_cons hc
    rw [turn_of_isNonTerminal hg (hg.isNonTerminal_left hp), ht, Option.bind_some, hcell,
      Option.bind_some, hg.production?_ordinal hp, Option.filter_some,
      if_pos (decide_eq_true rfl)]
    exact ⟨hp, _, hr, rfl, rfl, rfl⟩
  | unpredicted stack path trees accepted tokens h hcell =>
    obtain ⟨rfl, rfl⟩ := hs.of_cons hc
    rw [turn_of_isNonTerminal hg (Grammar.isNonTerminal_iff.mpr ⟨_, _, h⟩),
      Option.bind_eq_none_iff.mpr hcell]
    exact Or.inl ⟨_, hr⟩
  | unknownProduction stack path trees accepted tokens h ht hcell hp =>
    obtain ⟨rfl, rfl⟩ := hs.of_cons hc
    rw [turn_of_isNonTerminal hg h, ht, Option.bind_some, hcell, Option.bind_some]
    split
    · next p hfilter =>
      obtain ⟨hproduction, hleft⟩ := Option.filter_eq_some_iff.mp hfilter
      obtain ⟨hmem, hordinal⟩ := Grammar.mem_of_production? hproduction
      exact absurd (of_decide_eq_true hleft) (hp p hmem hordinal)
    · exact Or.inl ⟨_, hr⟩
  | accept stack trees accepted tokens ht =>
    obtain ⟨rfl, rfl⟩ := hs.of_cons hc
    exact takes_of_consume hg hg.isLiteral_endMark ht hr rfl rfl rfl (Nat.le_succ _)
  | consume stack path trees accepted tokens ht h =>
    obtain ⟨rfl, rfl⟩ := hs.of_cons hc
    exact takes_of_consume hg h ht hr stack_attach tokens_attach length_path_attach (Nat.le_succ _)
  | mismatch stack path trees accepted tokens ht h =>
    obtain ⟨rfl, rfl⟩ := hs.of_cons hc
    rw [turn_of_isLiteral hg h, if_neg fun h => ht h.1]
    exact Or.inl ⟨_, hr⟩

/-! ## Looking ahead along the branches -/

/-- What becomes of a sequence, symbol by symbol: it is done with when all of them are, and jams at
the first that jams. -/
def verdictAll (known : SymbolId → Option Bool) : List SymbolId → Option Bool
  | [] => some true
  | s :: rest =>
    match known s with
    | some true => verdictAll known rest
    | verdict => verdict

/-- What becomes of a symbol, looking at most `depth` branches deep: `true` when the parser is done
with it, `false` when it jams. -/
def verdict (g : Grammar) (table : PredictiveTable) (tokens : TokenStream) :
    Nat → SymbolId → Option Bool
  | 0 => fun _ => none
  | depth + 1 => fun s =>
    match turn g table tokens s with
    | .pass => some true
    | .jam => some false
    | .opens p => verdictAll (verdict g table tokens depth) p.right

section Verdict

variable {known known' : SymbolId → Option Bool} {b : Bool} {depth : Nat}

theorem verdict_succ_eq : verdict g table tokens (depth + 1) s =
    match turn g table tokens s with
    | .pass => some true
    | .jam => some false
    | .opens p => verdictAll (verdict g table tokens depth) p.right :=
  rfl

/-- A verdict on a sequence stands when more is known of its symbols. -/
theorem verdictAll_mono (h : ∀ s ∈ w, ∀ b, known s = some b → known' s = some b)
    (hw : verdictAll known w = some b) : verdictAll known' w = some b := by
  induction w with
  | nil => exact hw
  | cons s rest ih =>
    have hs := h s List.mem_cons_self
    rw [verdictAll] at hw ⊢
    cases hknown : known s with
    | none => rw [hknown] at hw; exact nomatch hw
    | some b' =>
      rw [hknown] at hw
      rw [hs b' hknown]
      cases b' with
      | true => exact ih (fun s hs => h s (List.mem_cons_of_mem _ hs)) hw
      | false => exact hw

/-- A deeper look tells no less. -/
theorem verdict_succ (h : verdict g table tokens depth s = some b) :
    verdict g table tokens (depth + 1) s = some b := by
  induction depth generalizing s b with
  | zero => exact nomatch h
  | succ depth ih =>
    rw [verdict_succ_eq] at h ⊢
    split
    · next hturn => rwa [hturn] at h
    · next hturn => rwa [hturn] at h
    · next p hturn =>
      rw [hturn] at h
      exact verdictAll_mono (fun s _ b => ih) h

/-- Looking deeper changes no verdict that has been reached. -/
theorem verdict_mono {m n : Nat} (h : verdict g table tokens m s = some b) (hmn : m ≤ n) :
    verdict g table tokens n s = some b := by
  induction hmn with
  | refl => exact h
  | step _ ih => exact verdict_succ ih

/-- The symbols that a look tells about. -/
def told (g : Grammar) (table : PredictiveTable) (tokens : TokenStream) (depth : Nat) :
    Finset SymbolId :=
  (Finset.range g.symbols.length).filter fun s => (verdict g table tokens depth s).isSome

theorem told_subset {m n : Nat} (hmn : m ≤ n) :
    told g table tokens m ⊆ told g table tokens n := by
  intro s hs
  obtain ⟨hrange, hsome⟩ := Finset.mem_filter.mp hs
  obtain ⟨b, hb⟩ := Option.isSome_iff_exists.mp hsome
  exact Finset.mem_filter.mpr ⟨hrange, Option.isSome_iff_exists.mpr ⟨b, verdict_mono hb hmn⟩⟩

/-- A look that tells about no more symbols than a less deep one tells nothing new. -/
theorem verdict_of_told {m n : Nat} (h : told g table tokens n ⊆ told g table tokens m)
    (hmn : m ≤ n) (hs : s < g.symbols.length) (hb : verdict g table tokens n s = some b) :
    verdict g table tokens m s = some b := by
  have hmem : s ∈ told g table tokens m :=
    h (Finset.mem_filter.mpr ⟨Finset.mem_range.mpr hs, Option.isSome_iff_exists.mpr ⟨b, hb⟩⟩)
  obtain ⟨b', hb'⟩ := Option.isSome_iff_exists.mp (Finset.mem_filter.mp hmem).2
  rwa [← Option.some.inj ((verdict_mono hb' hmn).symm.trans hb)]

/-- A level that tells nothing new is followed by another one. -/
theorem told_subset_succ (hg : g.WellFormed)
    (h : told g table tokens (depth + 1) ⊆ told g table tokens depth) :
    told g table tokens (depth + 2) ⊆ told g table tokens (depth + 1) := by
  intro s hs
  obtain ⟨hrange, hsome⟩ := Finset.mem_filter.mp hs
  obtain ⟨b, hb⟩ := Option.isSome_iff_exists.mp hsome
  refine Finset.mem_filter.mpr ⟨hrange, Option.isSome_iff_exists.mpr ⟨b, ?_⟩⟩
  rw [verdict_succ_eq] at hb ⊢
  split
  · next hturn => rwa [hturn] at hb
  · next hturn => rwa [hturn] at hb
  · next p hturn =>
    rw [hturn] at hb
    have hp := mem_of_turn_eq_opens hturn
    exact verdictAll_mono (fun r hr b =>
      verdict_of_told h (Nat.le_succ depth) (hg.right_lt hp r hr)) hb

/-- **As many levels as there are symbols tell all there is to tell.** -/
theorem verdict_stabilises (hg : g.WellFormed) (h : verdict g table tokens depth s = some b) :
    verdict g table tokens g.symbols.length s = some b := by
  rcases Nat.le_total depth g.symbols.length with hle | hle
  · exact verdict_mono h hle
  by_cases hs : s < g.symbols.length
  · refine verdict_of_told (Finset.eq_of_subset_of_card_le (told_subset hle) ?_).ge hle hs h
    refine (Nat.stabilises_of_monotone (f := fun depth => (told g table tokens depth).card)
      (monotone_nat_of_le_succ fun depth => Finset.card_le_card (told_subset (Nat.le_succ depth)))
      (fun depth => (Finset.card_filter_le _ _).trans_eq (Finset.card_range _)) ?_ hle).le
    intro depth hcard
    have hsubset := (Finset.eq_of_subset_of_card_le (told_subset (Nat.le_succ depth)) hcard.ge).ge
    exact le_antisymm (Finset.card_le_card (told_subset (Nat.le_succ _)))
      (Finset.card_le_card (told_subset_succ hg hsubset))
  · -- a number that is no symbol's jams at once
    have hlt := (List.getElem?_eq_some_iff.mp hg.symbol_epsilon).1
    obtain ⟨size, hsize⟩ : ∃ size, g.symbols.length = size + 1 :=
      Nat.exists_eq_add_one.mpr (Nat.zero_lt_of_lt hlt)
    have hunknown : g.symbol? s = none := List.getElem?_eq_none (Nat.le_of_not_lt hs)
    cases depth with
    | zero => exact nomatch h
    | succ depth =>
      rw [verdict_succ_eq, turn_of_unknown hg hunknown] at h
      rw [hsize, verdict_succ_eq, turn_of_unknown hg hunknown]
      exact h

end Verdict

/-! ## Stretches -/

namespace Config

variable {limit limit' height : Nat} {below' : List StackEntry}

/-- Within `limit` steps that take no token, the stack comes down to `below`. -/
def Clears (g : Grammar) (table : PredictiveTable) (limit : Nat) (below : List StackEntry)
    (c : Config) : Prop :=
  ∃ n ≤ limit, ∃ c', Reaches g table n c c' ∧ c'.stack = below ∧ c'.tokens = c.tokens ∧
    c'.path.length = c.path.length

/-- After at most `limit` steps that take no token, the stack is at most `height` high, and the next
step stops or takes a token. -/
def Jams (g : Grammar) (table : PredictiveTable) (limit height : Nat) (c : Config) : Prop :=
  ∃ n ≤ limit, ∃ c', Reaches g table n c c' ∧ c'.tokens = c.tokens ∧ c'.stack.length ≤ height ∧
    c'.Breaks g table

/-- **What clears the stack down to some height can be followed by what clears it further**, from
any state that is left at that height. -/
theorem Clears.trans (h : c.Clears g table limit below)
    (h' : ∀ c' : Config, c'.stack = below → c'.tokens = c.tokens →
      c'.path.length = c.path.length → c'.Clears g table limit' below') :
    c.Clears g table (limit + limit') below' := by
  obtain ⟨n, hn, c', hreaches, hstack, htokens, hpath⟩ := h
  obtain ⟨n', hn', c'', hreaches', hstack', htokens', hpath'⟩ := h' c' hstack htokens hpath
  exact ⟨n + n', Nat.add_le_add hn hn', c'', hreaches.trans hreaches', hstack',
    htokens'.trans htokens, hpath'.trans hpath⟩

theorem Jams.of_reaches {n : Nat} (h : c'.Jams g table limit height)
    (hreaches : Reaches g table n c c') (htokens : c'.tokens = c.tokens) :
    c.Jams g table (n + limit) height := by
  obtain ⟨n', hn', c'', hreaches', htokens', hheight, hbreaks⟩ := h
  exact ⟨n + n', Nat.add_le_add_left hn' n, c'', hreaches.trans hreaches', htokens'.trans htokens,
    hheight, hbreaks⟩

/-- A jam stays one with more room. -/
theorem Jams.mono {height' : Nat} (h : c.Jams g table limit height) (hle : limit ≤ limit')
    (hheight : height ≤ height') : c.Jams g table limit' height' := by
  obtain ⟨n, hn, c', hreaches, htokens, hc', hbreaks⟩ := h
  exact ⟨n, hn.trans hle, c', hreaches, htokens, hc'.trans hheight, hbreaks⟩

theorem Breaks.jams (h : c.Breaks g table) : c.Jams g table 0 c.stack.length :=
  ⟨0, Nat.le_refl 0, c, .refl c, rfl, Nat.le_refl _, h⟩

/-- Where a branch is open, an `ascend` entry is done with in one step. -/
theorem exists_step_ascend (g : Grammar) (table : PredictiveTable)
    (hc : c.stack = .ascend :: below) {size : Nat} (hpath : c.path.length = size + 1) :
    ∃ c', c.step g table = .next c' ∧ c'.stack = below ∧ c'.tokens = c.tokens ∧
      c'.path.length = size := by
  obtain ⟨stack, path, trees, accepted, tokens⟩ := c
  obtain rfl : stack = .ascend :: below := hc
  obtain ⟨b, outer, rfl⟩ := List.exists_cons_of_length_eq_add_one hpath
  exact ⟨_, step_ascend, stack_attach, tokens_attach,
    length_path_attach.trans (Nat.succ.inj hpath)⟩

end Config

/-! ## The bound of a stretch -/

/-- The factor by which a branch has more steps than what it is made of. -/
def Grammar.width (g : Grammar) : Nat :=
  (g.productions.map fun p => p.right.length).foldr max 1 + 2

/-- The width has room for a right side, the mark above it and the entry that both stand for. -/
theorem Grammar.length_right_le (hp : p ∈ g.productions) : p.right.length + 2 ≤ g.width := by
  refine Nat.add_le_add_right ?_ 2
  have hmem : p.right.length ∈ g.productions.map fun p => p.right.length :=
    List.mem_map_of_mem hp
  generalize (g.productions.map fun p => p.right.length) = lengths at hmem
  induction lengths with
  | nil => exact absurd hmem List.not_mem_nil
  | cons length lengths ih =>
    rcases List.mem_cons.mp hmem with rfl | hmem
    · exact Nat.le_max_left _ _
    · exact (ih hmem).trans (Nat.le_max_right _ _)

/-- The steps of a right side and the two of its branch. -/
theorem Grammar.steps_le (hp : p ∈ g.productions) (depth : Nat) :
    p.right.length * g.width ^ depth + 2 ≤ g.width ^ (depth + 1) := by
  have hpos : 1 ≤ g.width ^ depth := Nat.one_le_pow _ _ (Nat.zero_lt_of_lt (length_right_le hp))
  calc p.right.length * g.width ^ depth + 2
      ≤ p.right.length * g.width ^ depth + 2 * g.width ^ depth := by omega
    _ = (p.right.length + 2) * g.width ^ depth := (Nat.add_mul ..).symm
    _ ≤ g.width * g.width ^ depth := Nat.mul_le_mul_right _ (length_right_le hp)
    _ = g.width ^ (depth + 1) := (Nat.pow_succ' ..).symm

namespace Config

variable {depth limit extra : Nat} {entry : StackEntry} {known : SymbolId → Option Bool}

/-- The entries of a sequence that is done with, one after the other. -/
theorem clears_of_verdictAll
    (clears : ∀ s, known s = some true → ∀ (c : Config) (below : List StackEntry),
      c.stack = .ofSymbol s :: below → c.tokens = tokens → c.Clears g table limit below)
    (hw : verdictAll known w = some true) (hc : c.stack = w.map .ofSymbol ++ below)
    (htokens : c.tokens = tokens) : c.Clears g table (w.length * limit) below := by
  induction w generalizing c with
  | nil => exact ⟨0, Nat.zero_le _, c, .refl c, hc, rfl, rfl⟩
  | cons s w ih =>
    rw [verdictAll] at hw
    split at hw
    · next hs =>
      rw [List.length_cons, Nat.add_mul, Nat.one_mul, Nat.add_comm]
      exact (clears s hs c _ hc htokens).trans fun c' hstack htokens' _ =>
        ih hw hstack (htokens'.trans htokens)
    · next hs => exact absurd hw (hs ·)

/-- The entries of a sequence, up to the one that jams. -/
theorem jams_of_verdictAll
    (clears : ∀ s, known s = some true → ∀ (c : Config) (below : List StackEntry),
      c.stack = .ofSymbol s :: below → c.tokens = tokens → c.Clears g table limit below)
    (jams : ∀ s, known s = some false → ∀ (c : Config) (below : List StackEntry),
      c.stack = .ofSymbol s :: below → c.tokens = tokens →
        c.Jams g table limit (below.length + extra))
    (hw : verdictAll known w = some false) (hc : c.stack = w.map .ofSymbol ++ below)
    (htokens : c.tokens = tokens) :
    c.Jams g table (w.length * limit) (below.length + w.length + extra) := by
  induction w generalizing c with
  | nil => exact nomatch hw
  | cons s w ih =>
    rw [verdictAll] at hw
    split at hw
    · next hs =>
      obtain ⟨n, hn, c', hreaches, hstack, htokens', -⟩ := clears s hs c _ hc htokens
      refine ((ih hw hstack (htokens'.trans htokens)).of_reaches hreaches htokens').mono ?_ ?_
      · rw [List.length_cons, Nat.add_mul, Nat.one_mul, Nat.add_comm]
        exact Nat.add_le_add_left hn _
      · rw [List.length_cons]
        omega
    · refine (jams s hw c (w.map StackEntry.ofSymbol ++ below) hc htokens).mono ?_ ?_
      · exact Nat.le_mul_of_pos_left _ (Nat.succ_pos _)
      · rw [List.length_append, List.length_map, List.length_cons]
        omega

/-- **An entry that is done with** takes no more steps than a tree of the depth looked at. -/
theorem clears_of_verdict (hg : g.WellFormed) (h : verdict g table tokens depth s = some true)
    (hs : StackEntry.IsFor s entry) (hc : c.stack = entry :: below) (htokens : c.tokens = tokens) :
    c.Clears g table (g.width ^ depth) below := by
  induction depth generalizing s entry c below with
  | zero => exact nomatch h
  | succ depth ih =>
    have hturn := step_turn hg table hs hc
    rw [htokens] at hturn
    rw [verdict_succ_eq] at h
    split at h
    · next hpass =>
      rw [hpass] at hturn
      obtain ⟨c', hstep, hstack, htokens', hpath⟩ := hturn
      exact ⟨1, Nat.one_le_pow _ _ (Nat.succ_pos _), c', .of_next hstep, hstack, htokens', hpath⟩
    · exact nomatch h
    · next p hopens =>
      rw [hopens] at hturn
      obtain ⟨hp, c₁, hstep₁, hstack₁, htokens₁, hpath₁⟩ := hturn
      obtain ⟨n, hn, c₂, hreaches, hstack₂, htokens₂, hpath₂⟩ :=
        clears_of_verdictAll (fun s h c below hc => ih h StackEntry.isFor_ofSymbol hc) h hstack₁
          (htokens₁.trans htokens)
      obtain ⟨c₃, hstep₃, hstack₃, htokens₃, hpath₃⟩ :=
        exists_step_ascend g table hstack₂ (hpath₂.trans hpath₁)
      refine ⟨1 + n + 1, ?_, c₃, ((Reaches.of_next hstep₁).trans hreaches).trans (.of_next hstep₃),
        hstack₃, htokens₃.trans (htokens₂.trans htokens₁), hpath₃⟩
      have hsteps := Grammar.steps_le hp depth
      omega

/-- **An entry that jams** does so within as many steps, and leaves on the stack what belongs to the
branches above the place. -/
theorem jams_of_verdict (hg : g.WellFormed) (h : verdict g table tokens depth s = some false)
    (hs : StackEntry.IsFor s entry) (hc : c.stack = entry :: below) (htokens : c.tokens = tokens) :
    c.Jams g table (g.width ^ depth) (below.length + (1 + depth * g.width)) := by
  induction depth generalizing s entry c below with
  | zero => exact nomatch h
  | succ depth ih =>
    have hturn := step_turn hg table hs hc
    rw [htokens] at hturn
    rw [verdict_succ_eq] at h
    split at h
    · exact nomatch h
    · next hjam =>
      rw [hjam] at hturn
      refine hturn.jams.mono (Nat.zero_le _) ?_
      rw [hc, List.length_cons]
      omega
    · next p hopens =>
      rw [hopens] at hturn
      obtain ⟨hp, c₁, hstep, hstack, htokens₁, -⟩ := hturn
      have hjams := jams_of_verdictAll
        (fun s h c below hc => clears_of_verdict hg h StackEntry.isFor_ofSymbol hc)
        (fun s h c below hc => ih h StackEntry.isFor_ofSymbol hc) h hstack (htokens₁.trans htokens)
      refine (hjams.of_reaches (.of_next hstep) htokens₁).mono ?_ ?_
      · have hsteps := Grammar.steps_le hp depth
        omega
      · have hright := Grammar.length_right_le hp
        rw [List.length_cons, Nat.add_mul]
        omega

end Config

/-! ## Runs that stop -/

/-- The entries of a sequence, when those of each symbol are told of. -/
theorem exists_verdictAll_of_run (hg : g.WellFormed) {fuel : Nat}
    (told : ∀ s (c : Config) (below : List StackEntry), run g table fuel c = some o →
      c.stack = .ofSymbol s :: below → c.tokens = tokens →
        ∃ b, verdict g table tokens fuel s = some b)
    (hrun : run g table fuel c = some o) (hc : c.stack = w.map .ofSymbol ++ below)
    (htokens : c.tokens = tokens) : ∃ b, verdictAll (verdict g table tokens fuel) w = some b := by
  induction w generalizing c with
  | nil => exact ⟨true, rfl⟩
  | cons s w ih =>
    obtain ⟨b, hb⟩ := told s c (w.map StackEntry.ofSymbol ++ below) hrun hc htokens
    rw [verdictAll, hb]
    cases b with
    | false => exact ⟨false, rfl⟩
    | true =>
      obtain ⟨n, -, c', hreaches, hstack, htokens', -⟩ :=
        Config.clears_of_verdict hg hb StackEntry.isFor_ofSymbol hc htokens
      exact ih (hreaches.run_eq hrun) hstack (htokens'.trans htokens)

/-- **A run that stops tells what becomes of the entry on the top of its stack.** -/
theorem exists_verdict_of_run (hg : g.WellFormed) {fuel : Nat} {entry : StackEntry}
    (hrun : run g table fuel c = some o) (hs : StackEntry.IsFor s entry)
    (hc : c.stack = entry :: below) (htokens : c.tokens = tokens) :
    ∃ b, verdict g table tokens fuel s = some b := by
  induction fuel generalizing s entry c below with
  | zero => exact nomatch hrun
  | succ fuel ih =>
    have hturn := Config.step_turn hg table hs hc
    rw [htokens] at hturn
    rw [verdict_succ_eq]
    split
    · exact ⟨true, rfl⟩
    · exact ⟨false, rfl⟩
    · next p hopens =>
      rw [hopens] at hturn
      obtain ⟨-, c', hstep, hstack, htokens', -⟩ := hturn
      rw [run_succ_of_next hstep] at hrun
      exact exists_verdictAll_of_run hg
        (fun s c below hrun hc => ih hrun StackEntry.isFor_ofSymbol hc) hrun hstack
        (htokens'.trans htokens)

theorem StackEntry.exists_isFor {entry : StackEntry} (h : entry ≠ .ascend) :
    ∃ s, StackEntry.IsFor s entry := by
  cases entry with
  | symbol s => exact ⟨s, Or.inl rfl⟩
  | epsilon => exact ⟨epsilonId, Or.inr ⟨rfl, rfl⟩⟩
  | ascend => exact absurd rfl h

/-- **A stretch of a run that stops** handles each entry on the stack in a bounded number of
steps. -/
theorem jams_of_run (hg : g.WellFormed) {fuel : Nat} (hrun : run g table fuel c = some o) :
    c.Jams g table (c.stack.length * g.width ^ g.symbols.length)
      (c.stack.length + g.symbols.length * g.width) := by
  generalize hstack : c.stack = stack
  induction stack generalizing c with
  | nil =>
    have hbreaks : c.Breaks g table := Or.inl ⟨c.finish g, by rw [Config.step, hstack]⟩
    exact hbreaks.jams.mono (Nat.zero_le _) (by rw [hstack]; exact Nat.zero_le _)
  | cons entry below ih =>
    have hpos : 1 ≤ g.width ^ g.symbols.length := Nat.one_le_pow _ _ (Nat.succ_pos _)
    rw [List.length_cons, Nat.add_mul, Nat.one_mul, Nat.add_comm]
    by_cases hentry : entry = .ascend
    · subst hentry
      cases hpath : c.path.length with
      | zero =>
        have hbreaks : c.Breaks g table := by
          refine Or.inl ⟨⟨.error (.internal .ascendPastRoot), c.tokens⟩, ?_⟩
          rw [Config.step, hstack]
          dsimp only [Config.ascend]
          rw [List.length_eq_zero_iff.mp hpath]
          rfl
        refine hbreaks.jams.mono (Nat.zero_le _) ?_
        rw [hstack, List.length_cons]
        exact Nat.le_add_right _ _
      | succ size =>
        obtain ⟨c', hstep, hstack', htokens, -⟩ := Config.exists_step_ascend g table hstack hpath
        have hreaches := Reaches.of_next hstep
        exact ((ih (hreaches.run_eq hrun) hstack').of_reaches hreaches htokens).mono
          (Nat.add_le_add_right hpos _) (by omega)
    · obtain ⟨s, hs⟩ := StackEntry.exists_isFor hentry
      obtain ⟨b, hb⟩ := exists_verdict_of_run hg hrun hs hstack rfl
      replace hb := verdict_stabilises hg hb
      cases b with
      | true =>
        obtain ⟨n, hn, c', hreaches, hstack', htokens, -⟩ :=
          Config.clears_of_verdict hg hb hs hstack rfl
        exact ((ih (hreaches.run_eq hrun) hstack').of_reaches hreaches htokens).mono
          (Nat.add_le_add_right hn _) (by omega)
      | false =>
        exact (Config.jams_of_verdict hg hb hs hstack rfl).mono (Nat.le_add_right _ _) (by omega)

/-- The stop that a run comes to. -/
theorem run_of_reaches_stop {n fuel : Nat} {o' : Outcome} (hrun : run g table fuel c = some o)
    (hreaches : Reaches g table n c c') (hstop : c'.step g table = .stop o') :
    run g table (n + 1) c = some o := by
  rw [hreaches 1, run_succ_of_stop hstop,
    Stops.unique (Stops.of_stop hstop) ⟨fuel, hreaches.run_eq hrun⟩]

/-- **A run that stops does so within a bound** that the height of the stack and the number of
tokens left give: there is one stretch before each of them and one after the last. -/
theorem run_bound (hg : g.WellFormed) {fuel left : Nat} (hleft : c.tokens.rest.length = left)
    (hrun : run g table fuel c = some o) :
    run g table ((left + 1) * ((c.stack.length + left * (g.symbols.length * g.width)) *
      g.width ^ g.symbols.length + 1)) c = some o := by
  induction left generalizing c with
  | zero =>
    obtain ⟨n, hn, c', hreaches, htokens, -, ⟨o', hstop⟩ | ⟨-, -, hrest, -⟩⟩ := jams_of_run hg hrun
    · refine run_mono (run_of_reaches_stop hrun hreaches hstop) ?_
      rw [Nat.zero_add, Nat.one_mul, Nat.zero_mul, Nat.add_zero]
      exact Nat.succ_le_succ hn
    · exact absurd (htokens ▸ List.length_eq_zero_iff.mp hleft) hrest
  | succ left ih =>
    obtain ⟨n, hn, c', hreaches, htokens, hheight, hbreaks⟩ := jams_of_run hg hrun
    generalize g.width ^ g.symbols.length = steps at hn ih ⊢
    generalize g.symbols.length * g.width = growth at hheight ih ⊢
    have hbase : c.stack.length * steps ≤ (c.stack.length + (left + 1) * growth) * steps :=
      Nat.mul_le_mul_right _ (Nat.le_add_right _ _)
    rcases hbreaks with ⟨o', hstop⟩ | ⟨c'', hstep, hrest, hpop, hlength⟩
    · refine run_mono (run_of_reaches_stop hrun hreaches hstop) ?_
      refine (Nat.succ_le_succ (hn.trans hbase)).trans (Nat.le_mul_of_pos_left _ (Nat.succ_pos _))
    · have hreaches' := hreaches.trans (.of_next hstep)
      have hleft' : c''.tokens.rest.length = left := by
        rw [hpop, htokens]
        rw [htokens] at hrest
        obtain ⟨token, rest, hcons⟩ := List.exists_cons_of_ne_nil hrest
        rw [hcons, List.length_cons] at hleft
        rw [TokenStream.pop, hcons]
        exact Nat.succ.inj hleft
      have hstretch := ih hleft' (hreaches'.run_eq hrun)
      rw [← hreaches'] at hstretch
      refine run_mono hstretch ?_
      have hgrowth : c''.stack.length + left * growth ≤ c.stack.length + (left + 1) * growth := by
        rw [Nat.add_mul, Nat.one_mul]
        omega
      calc n + 1 + (left + 1) * ((c''.stack.length + left * growth) * steps + 1)
          ≤ (c.stack.length + (left + 1) * growth) * steps + 1 +
              (left + 1) * ((c.stack.length + (left + 1) * growth) * steps + 1) :=
            Nat.add_le_add (Nat.succ_le_succ (hn.trans hbase))
              (Nat.mul_le_mul_left _ (Nat.succ_le_succ (Nat.mul_le_mul_right _ hgrowth)))
        _ = (left + 1 + 1) * ((c.stack.length + (left + 1) * growth) * steps + 1) := by
            rw [Nat.add_mul (left + 1) 1, Nat.one_mul, Nat.add_comm]

/-- The bound at the start of a parse is at most the step bound. -/
theorem bound_le_stepBound (left width size : Nat) (hwidth : 2 ≤ width) :
    (left + 1) * ((2 + left * (size * width)) * width ^ size + 1) ≤
      (left + 2) * ((left + 2) * (width * width ^ (size + 1)) + 2) * width ^ (size + 1) := by
  have hsteps : width ^ size ≤ width ^ (size + 1) := Nat.pow_le_pow_right (by omega) (by omega)
  have hsize : size ≤ width ^ (size + 1) := (Nat.lt_pow_self hwidth).le.trans hsteps
  have hpos : 1 ≤ width ^ (size + 1) := Nat.one_le_pow _ _ (by omega)
  generalize width ^ (size + 1) = below at *
  have hgrowth : size * width ≤ width * below := by
    rw [Nat.mul_comm]
    exact Nat.mul_le_mul_left _ hsize
  rw [Nat.mul_assoc]
  refine Nat.mul_le_mul (by omega) ?_
  calc (2 + left * (size * width)) * width ^ size + 1
      ≤ (2 + left * (width * below)) * below + 1 :=
        Nat.succ_le_succ (Nat.mul_le_mul (Nat.add_le_add_left (Nat.mul_le_mul_left _ hgrowth) 2)
          hsteps)
    _ ≤ (2 + left * (width * below)) * below + 2 * (width * below) * below := by
        refine Nat.add_le_add_left (Nat.mul_pos (Nat.mul_pos Nat.two_pos ?_) hpos) _
        exact Nat.mul_pos (by omega) hpos
    _ = ((left + 2) * (width * below) + 2) * below := by ring

/-- **Every parse that stops stops within the step bound.** -/
theorem Grammar.WellFormed.parseFrom_eq_some_iff (hg : g.WellFormed) {x : SymbolId} :
    g.parseFrom table x tokens = some o ↔ Stops g table (.initial x tokens) o := by
  refine ⟨fun h => ⟨_, h⟩, fun ⟨fuel, hrun⟩ => run_mono (run_bound hg rfl hrun) ?_⟩
  exact bound_le_stepBound tokens.rest.length g.width g.symbols.length (Nat.le_add_left 2 _)

end GrammarTables
