import GrammarTables.Error
import GrammarTables.Grammar.Symbol
import GrammarTables.Text.Line

/-!
# Grammar/Rule — the rules of a grammar text

    A -> x B | y        a rule: the left side, then the alternatives
       | z              a continuation: more alternatives of the left side above

A line is read on its own (`Line.read`); only then does a continuation get its left side, from the
line before it that has one (`rulesFrom`).  Blank lines are skipped.  The first faulty line decides
the error.
-/

namespace GrammarTables

/-- What is wrong with a line of a grammar text. -/
inductive LineFault
  | manyArrows
  | emptyLeft
  | blankInLeft
  | reservedLeft
  | noLeft
  | noArrow
deriving DecidableEq

/-- The wording. -/
def LineFault.reason : LineFault → String
  | manyArrows => "too many \"->\""
  | emptyLeft => "empty left side"
  | blankInLeft => "left side contains whitespace"
  | reservedLeft => "reserved symbol on the left side"
  | noLeft => "cannot find left side"
  | noArrow => "expected \"->\" or \"|\""

/-- Alternatives as they are written: lists of names. -/
abbrev Alternatives := List (List String)

/-- A left side and the alternatives that one line gives it. -/
structure Rule where
  left : String
  alternatives : Alternatives
deriving DecidableEq

/-- A line of a grammar text. -/
inductive Line
  | blank
  | rule (rule : Rule)
  | continuation (alternatives : Alternatives)
  /-- Neither a rule nor a continuation. -/
  | stray

/-- The stretches of a line before, between and after its arrows. -/
def arrowPieces : List Char → List (List Char)
  | '-' :: '>' :: cs => [] :: arrowPieces cs
  | c :: cs => (arrowPieces cs).modifyHead (c :: ·)
  | [] => [[]]

/-- The alternatives that a text between bars writes. -/
def readAlternatives (cs : List Char) : Alternatives :=
  (Text.pieces (· == '|') cs).map fun piece => (Text.words piece).map String.ofList

/-- Whether a name stands for the empty string or the end mark. -/
def isReserved (name : String) : Bool :=
  Symbol.isCalled name .epsilon || Symbol.isCalled name .endMark

/-- The left side of a rule: one name, and not a reserved one. -/
def readLeft (cs : List Char) : Except LineFault String :=
  match Text.words cs with
  | [] => .error .emptyLeft
  | [word] =>
    if isReserved (String.ofList word) then .error .reservedLeft else .ok (String.ofList word)
  | _ => .error .blankInLeft

/-- What a line is, seen on its own. -/
def Line.read (cs : List Char) : Except LineFault Line :=
  if cs.all Text.isBlank then .ok .blank
  else
    match arrowPieces cs with
    | [left, right] => (readLeft left).map fun left => .rule ⟨left, readAlternatives right⟩
    | [_] =>
      match Text.trim cs with
      | '|' :: rest => .ok (.continuation (readAlternatives rest))
      | _ => .ok .stray
    | _ => .error .manyArrows

/-- The rules of the lines from number `number` on, when `left?` is the left side above them. -/
def rulesFrom (number : Nat) (left? : Option String) :
    List (List Char) → Except GrammarError (List Rule)
  | [] => .ok []
  | cs :: rest =>
    let fault (f : LineFault) : Except GrammarError (List Rule) :=
      .error (.malformed number f.reason)
    match Line.read cs, left? with
    | .error f, _ => fault f
    | .ok .blank, _ => rulesFrom (number + 1) left? rest
    | .ok (.rule rule), _ => (rulesFrom (number + 1) (some rule.left) rest).map (rule :: ·)
    | .ok (.continuation alternatives), some left =>
      (rulesFrom (number + 1) left? rest).map (⟨left, alternatives⟩ :: ·)
    | .ok (.continuation _), none => fault .noLeft
    | .ok .stray, none => fault .noLeft
    | .ok .stray, some _ => fault .noArrow

/-- The rules of a grammar text, one for each line that is not blank. -/
def readRules (text : String) : Except GrammarError (List Rule) :=
  rulesFrom 1 none (Text.lines text.toList)

end GrammarTables
