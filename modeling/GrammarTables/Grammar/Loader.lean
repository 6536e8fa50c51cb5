import GrammarTables.Grammar.Builder
import GrammarTables.Grammar.Rule

/-!
# Grammar/Loader — the grammar that a list of rules describes

Every left side is a non-terminal and every other name a terminal, wherever it stands.  The left
sides are numbered first, in the order of their lines, then the terminals in the order of their
first mention.  The start symbol is the left side that mentions the end mark, and the first left
side when none does.
-/

namespace GrammarTables

/-- Whether the rule mentions the end mark. -/
def Rule.mentionsEnd (rule : Rule) : Bool :=
  rule.alternatives.any fun names => names.contains Symbol.endMarkName

/-- The name of the start symbol; there is none when there are no rules. -/
def startName? (rules : List Rule) : Except GrammarError (Option String) :=
  match rules.filter Rule.mentionsEnd with
  | [] => .ok (rules.head?.map Rule.left)
  | marked :: others =>
    match others.find? fun rule => rule.left ≠ marked.left with
    | some other => .error (.multipleStartSymbols marked.left other.left)
    | none => .ok (some marked.left)

namespace Builder

/-- The number of a name; one that is new becomes a terminal. -/
def mention (b : Builder) (name : String) : Except GrammarError (Builder × SymbolId) :=
  match b.index? name with
  | some s => .ok (b, s)
  | none => b.addTerminal name

/-- The numbers of a sequence of names. -/
def mentionAll (b : Builder) : List String → Except GrammarError (Builder × List SymbolId)
  | [] => .ok (b, [])
  | name :: names => do
    let (b, s) ← b.mention name
    let (b, rest) ← b.mentionAll names
    return (b, s :: rest)

/-- One more alternative, given by names. -/
def addAlternative (b : Builder) (left : String) (names : List String) :
    Except GrammarError Builder := do
  let (b, right) ← b.mentionAll names
  let (b, left) ← b.addNonTerminal left
  b.addProduction left right

/-- The alternatives of one rule. -/
def addRule (b : Builder) (rule : Rule) : Except GrammarError Builder :=
  rule.alternatives.foldlM (fun b names => b.addAlternative rule.left names) b

/-- The left sides of the rules, declared in their order. -/
def declareLefts (rules : List Rule) : Except GrammarError Builder :=
  rules.foldlM (fun b rule => (b.addNonTerminal rule.left).map (·.1)) empty

/-- The start symbol, given by its name. -/
def setStartName (b : Builder) : Option String → Except GrammarError Builder
  | none => .ok b
  | some name => do
    let (b, s) ← b.addNonTerminal name
    b.setStart s

end Builder

/-- The grammar that the rules describe. -/
def Grammar.ofRules (rules : List Rule) : Except GrammarError Grammar := do
  let start ← startName? rules
  let b ← Builder.declareLefts rules
  let b ← rules.foldlM Builder.addRule b
  let b ← b.setStartName start
  b.build

/-- The grammar that a text describes. -/
def Grammar.ofText (text : String) : Except GrammarError Grammar := do
  Grammar.ofRules (← readRules text)

end GrammarTables
