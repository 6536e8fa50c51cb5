/-!
# Text/Tex — names inside LaTeX

Reports in LaTeX write names with an escape that they are given.  `escape` is the one that the
program gives them: it writes a name so that LaTeX shows its characters.  A second hyphen in a row
is kept apart from the first, since `--` would be set as a dash.  `replaceAll` puts one text for
every occurrence of another, left to right and without overlap.
-/

namespace GrammarTables.Text.Tex

/-- How `c` is written, when `next` is the character after it. -/
def escapeChar (c : Char) (next : Option Char) : List Char :=
  match c with
  | '-' => if next = some '-' then "-\x7b\x7d".toList else ['-']
  | '&' => "\\&".toList
  | '%' => "\\%".toList
  | '$' => "\\$".toList
  | '#' => "\\#".toList
  | '_' => "\\_".toList
  | '\x7b' => "\\\x7b".toList
  | '\x7d' => "\\\x7d".toList
  | '[' => "\x7b[\x7d".toList
  | ']' => "\x7b]\x7d".toList
  | '~' => "\\textasciitilde\x7b\x7d".toList
  | '^' => "\\textasciicircum\x7b\x7d".toList
  | '<' => "\\textless\x7b\x7d".toList
  | '>' => "\\textgreater\x7b\x7d".toList
  | '!' => "!\x7b\x7d".toList
  | '\\' => "\\textbackslash\x7b\x7d".toList
  | c => [c]

/-- Every character written as `escapeChar` says. -/
def escapeChars : List Char → List Char
  | [] => []
  | c :: cs => escapeChar c cs.head? ++ escapeChars cs

/-- A name as LaTeX text. -/
def escape (name : String) : String :=
  String.ofList (escapeChars name.toList)

/-- `replaceFrom old new skip cs` drops the first `skip` characters of `cs`, which belong to an
occurrence already replaced, and puts `new` for every occurrence of `old` in the rest. -/
def replaceFrom (old new : List Char) : Nat → List Char → List Char
  | _, [] => []
  | skip + 1, _ :: cs => replaceFrom old new skip cs
  | 0, c :: cs =>
    if old.isPrefixOf (c :: cs) then new ++ replaceFrom old new (old.length - 1) cs
    else c :: replaceFrom old new 0 cs

/-- `text` with `new` for every occurrence of `old`, which must not be empty. -/
def replaceAll (old new text : String) : String :=
  String.ofList (replaceFrom old.toList new.toList 0 text.toList)

end GrammarTables.Text.Tex
