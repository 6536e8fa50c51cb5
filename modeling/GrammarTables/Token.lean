import GrammarTables.Grammar.Symbol
import GrammarTables.Text.Line

/-!
# Token — the input of a parser

A token has a kind, which should name a terminal or the end mark, and perhaps a lexeme.  A stream
counts the tokens taken from it; when it has run out it keeps showing the end mark.
-/

namespace GrammarTables

/-- A piece of the input. -/
structure Token where
  kind : String
  lexeme : Option String
deriving DecidableEq

namespace Token

/-- The token that stands for the end of the input. -/
def endMark : Token :=
  ⟨Symbol.endMarkName, none⟩

/-- Whether the token is of the kind of the end mark. -/
def isEndMark (t : Token) : Bool :=
  t.kind = Symbol.endMarkName

/-- The token of a line: its first word is the kind, and what comes after that is the lexeme if
there is anything.  A blank line has no token. -/
def ofLine? (cs : List Char) : Option Token :=
  let line := Text.trim cs
  let kind := line.takeWhile fun c => !Text.isBlank c
  let lexeme := Text.trim (line.dropWhile fun c => !Text.isBlank c)
  if kind.isEmpty then none
  else
    some ⟨String.ofList kind, if lexeme.isEmpty then none else some (String.ofList lexeme)⟩

end Token

/-- A sequence of tokens, some of which have been taken. -/
structure TokenStream where
  /-- The number of tokens taken. -/
  position : Nat
  /-- The tokens still there. -/
  rest : List Token
deriving DecidableEq

namespace TokenStream

/-- A stream nothing has been taken from. -/
def ofList (tokens : List Token) : TokenStream :=
  ⟨0, tokens⟩

/-- The tokens of a text, one for each line that is not blank. -/
def ofText (text : String) : TokenStream :=
  ofList ((Text.lines text.toList).filterMap Token.ofLine?)

/-- Whether all tokens have been taken. -/
def isExhausted (tokens : TokenStream) : Bool :=
  tokens.rest.isEmpty

/-- The next token, or the end mark. -/
def peek (tokens : TokenStream) : Token :=
  tokens.rest.head?.getD Token.endMark

/-- The stream without its next token. -/
def pop (tokens : TokenStream) : TokenStream :=
  match tokens.rest with
  | [] => tokens
  | _ :: rest => ⟨tokens.position + 1, rest⟩

end TokenStream

end GrammarTables
