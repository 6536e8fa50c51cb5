import GrammarTables.Grammar.Basic
import GrammarTables.Predictive.Tree
import GrammarTables.Report.Format
import GrammarTables.Text.Json

/-!
# Report/Tree — a parse tree, spelled out

The tree of the start symbol is printed, without the root above it.  The names come from a grammar
that need not be the one the tree was made with: `isOver` says whether it names all symbols of the
tree.
-/

namespace GrammarTables

open Text (Json)

/-- The name of the empty string as the letter, in LaTeX's text. -/
def texLabel (escape : String → String) (name : String) : String :=
  Text.Tex.replaceAll Symbol.epsilonName "$\\epsilon$" (escape name)

namespace Tree

mutual

/-- The tree as `S(a S(lambda) b)`. -/
def plain (g : Grammar) : Tree → String
  | epsilon => g.nameOf epsilonId
  | literal symbol _ => g.nameOf symbol
  | branch symbol children => g.nameOf symbol ++ plainForest g children

/-- The children of a branch in brackets; a branch without children has no brackets. -/
def plainForest (g : Grammar) : List Tree → String
  | [] => ""
  | t :: ts => "(" ++ plain g t ++ plainRest g ts ++ ")"

/-- The children after the first. -/
def plainRest (g : Grammar) : List Tree → String
  | [] => ""
  | t :: ts => " " ++ plain g t ++ plainRest g ts

end

mutual

/-- The tree as a `qtree` picture. -/
def latex (escape : String → String) (g : Grammar) : Tree → String
  | epsilon => "\x7b" ++ texLabel escape (g.nameOf epsilonId) ++ "\x7d"
  | literal symbol _ => "\x7b" ++ texLabel escape (g.nameOf symbol) ++ "\x7d"
  | branch symbol [] => "\x7b" ++ texLabel escape (g.nameOf symbol) ++ "\x7d"
  | branch symbol (t :: ts) =>
    "[.\x7b" ++ texLabel escape (g.nameOf symbol) ++ "\x7d " ++ latex escape g t ++
      latexRest escape g ts ++ " ]"

/-- The children after the first. -/
def latexRest (escape : String → String) (g : Grammar) : List Tree → String
  | [] => ""
  | t :: ts => " " ++ latex escape g t ++ latexRest escape g ts

end

/-- The field for a lexeme, if there is one. -/
def lexemeField (token : Token) : List (String × Json) :=
  match token.lexeme with
  | none => []
  | some lexeme => [("lexeme", .str lexeme)]

mutual

/-- The tree as nested objects; a lexeme or children that are not there have no field. -/
def json (g : Grammar) : Tree → Json
  | epsilon => .obj [("symbol", .str (g.nameOf epsilonId))]
  | literal symbol token => .obj (("symbol", .str (g.nameOf symbol)) :: lexemeField token)
  | branch symbol [] => .obj [("symbol", .str (g.nameOf symbol))]
  | branch symbol (t :: ts) =>
    .obj [("symbol", .str (g.nameOf symbol)), ("children", .arr (json g t :: jsonForest g ts))]

/-- The children of a branch as objects. -/
def jsonForest (g : Grammar) : List Tree → List Json
  | [] => []
  | t :: ts => json g t :: jsonForest g ts

end

end Tree

namespace ParseTree

/-- Whether the grammar names all symbols of the tree. -/
def isOver (t : ParseTree) (g : Grammar) : Bool :=
  g.hasAll t.symbols

/-- The tree of the start symbol; nothing when there is none. -/
def plain (t : ParseTree) (g : Grammar) : String :=
  (t.start?.map (Tree.plain g)).getD ""

/-- The picture of the start symbol's tree. -/
def latex (escape : String → String) (t : ParseTree) (g : Grammar) : String :=
  "\\Tree " ++ (t.start?.map (Tree.latex escape g)).getD ""

/-- The object of the start symbol's tree. -/
def json (t : ParseTree) (g : Grammar) : Json :=
  (t.start?.map (Tree.json g)).getD .null

end ParseTree

end GrammarTables
