import GrammarTables.Grammar.Loader
import GrammarTables.Predictive.Machine
import GrammarTables.Report

/-!
# JsonAnswer — from texts to one JSON text

For callers that have a grammar as text and want an answer as text.  Every failure is an answer
too: an object whose field `error` words it.
-/

namespace GrammarTables

open Text (Json)

namespace JsonAnswer

/-- The answer that words a failure. -/
def failure (message : String) : String :=
  (Json.obj [("error", .str message)]).compact

/-- A report of a grammar text. -/
def ofReport (report : Report) (grammar : String) : String :=
  match Grammar.ofText grammar >>= fun g => report.render .json g with
  | .ok text => text
  | .error e => failure e.message

/-- Nullable, FIRST and FOLLOW of a grammar text. -/
def sets (grammar : String) : String :=
  ofReport .sets grammar

/-- The LL(1) table of a grammar text. -/
def predictiveTable (grammar : String) : String :=
  ofReport .predictiveTable grammar

/-- The parse tree of a token text; `none` if the parse never ends. -/
def parse (grammar tokens : String) : Option String :=
  match Grammar.ofText grammar with
  | .error e => some (failure e.message)
  | .ok g =>
    match g.predictiveTable .failFast with
    | .error e => some (failure e.message)
    | .ok table =>
      (g.parse table (.ofText tokens)).map fun outcome =>
        match outcome.result with
        | .ok tree => tree.render .json g
        | .error e => failure e.message

end JsonAnswer

end GrammarTables
