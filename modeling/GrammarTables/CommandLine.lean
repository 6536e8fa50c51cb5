import GrammarTables.Grammar.Loader
import GrammarTables.Predictive.Machine
import GrammarTables.Report

/-!
# CommandLine — the program that prints reports

    outputs [options] [grammar file] [token file]

These arguments are read into a `Request`.  A request for outputs produces one `Transcript` for each
of them, in order; they are put together up to the first that fails (`Transcript.sequence`).
-/

namespace GrammarTables

/-- What the program can print. -/
inductive Output
  | report (report : Report)
  | parse
deriving DecidableEq

/-- The names of the outputs. -/
def Output.ofName? : String → Option Output
  | "prod" => some (.report .productions)
  | "nff" => some (.report .sets)
  | "predict" => some (.report .predict)
  | "ll1" => some (.report .predictiveTable)
  | "parse" => some .parse
  | "lr0fsm" => some (.report .automaton)
  | "slrtable" => some (.report .actionTable)
  | _ => none

/-- How outputs are printed. -/
structure Settings where
  format : Format
  policy : ConflictPolicy
deriving DecidableEq

/-- Plain reports that stop at the first conflict. -/
def Settings.default : Settings :=
  ⟨.plain, .failFast⟩

/-- What the arguments ask for. -/
inductive Request
  | help
  | print (outputs : List Output) (settings : Settings)
      (grammarFile : Option String) (tokenFile : Option String)
deriving DecidableEq

namespace Request

/-- The outputs named in front, and the other arguments. -/
def takeOutputs : List String → List Output × List String
  | [] => ([], [])
  | arg :: args =>
    match Output.ofName? arg with
    | some output => let (outputs, rest) := takeOutputs args; (output :: outputs, rest)
    | none => ([], arg :: args)

/-- The options in front, and the other arguments; `none` when one of them asks for help. -/
def takeOptions (settings : Settings) : List String → Option (Settings × List String)
  | "-l" :: args => takeOptions { settings with format := .latex } args
  | "-j" :: args => takeOptions { settings with format := .json } args
  | "-c" :: args => takeOptions { settings with policy := .collect } args
  | "-h" :: _ => none
  | "--help" :: _ => none
  | args => some (settings, args)

/-- What the arguments ask for. -/
def ofArguments (args : List String) : Request :=
  let (outputs, rest) := takeOutputs args
  match takeOptions .default rest with
  | none => help
  | some (settings, files) =>
    if 2 < files.length || outputs.isEmpty then help
    else print outputs settings files[0]? files[1]?

end Request

/-- The text of `-h`. -/
def helpText : String :=
  "\n".intercalate [
    "Usage: cfgparse outputs [options] [grammar file] [token file]",
    "outputs:",
    "  prod: Productions",
    "  nff: Nullable first and follow",
    "  predict: Predict set of every production",
    "  ll1: LL(1) parsing table",
    "  parse: LL(1) parse tree of the token file",
    "  lr0fsm: LR(0) Automata",
    "  slrtable: SLR(1) parsing table",
    "options:",
    "  -h: Print this help",
    "  -l: Print in LaTeX format",
    "  -j: Print in JSON format",
    "  -c: Report every LL(1) conflict instead of the first",
    "The grammar is read from stdin when no grammar file is given."] ++ "\n"

/-- Why a text cannot be read. -/
inductive ReadError
  | missing
  | notUnicode
  /-- Any other reason, as it is worded by the system. -/
  | system (message : String)
deriving DecidableEq

/-- The wording. -/
def ReadError.message : ReadError → String
  | missing => "No such file or directory (os error 2)"
  | notUnicode => "stream did not contain valid UTF-8"
  | system message => message

/-- The text that bytes encode. -/
def decodeText (bytes : ByteArray) : Except ReadError String :=
  match String.fromUTF8? bytes with
  | some text => .ok text
  | none => .error .notUnicode

/-- What the program can read. -/
structure Surroundings where
  file : String → Except ReadError String
  input : Except ReadError String

/-- What the program has printed, and its exit code. -/
structure Transcript where
  code : Nat
  stdout : String
  stderr : String
deriving DecidableEq

namespace Transcript

/-- Nothing printed, and no failure. -/
def empty : Transcript :=
  ⟨0, "", ""⟩

/-- A line of the error log. -/
def logLine (message : String) : String :=
  " ERROR cfgparse > " ++ message ++ "\n"

/-- A text is printed, after some errors have been logged. -/
def printed (logged : List String) (text : String) : Transcript :=
  ⟨0, text ++ "\n", String.join (logged.map logLine)⟩

/-- The program gives up. -/
def failed (message : String) : Transcript :=
  ⟨1, "", logLine message⟩

/-- First one transcript, then another; the second does not come about when the first has failed. -/
def andThen (first : Transcript) (second : Option Transcript) : Option Transcript :=
  if first.code = 0 then
    second.map fun second =>
      ⟨second.code, first.stdout ++ second.stdout, first.stderr ++ second.stderr⟩
  else some first

/-- Transcripts one after the other, up to the first that fails.  `none` if one of these never
ends. -/
def sequence : List (Option Transcript) → Option Transcript
  | [] => some empty
  | none :: _ => none
  | some first :: rest => first.andThen (sequence rest)

end Transcript

/-- The errors that a report logs: the conflicts of its table. -/
def Report.logged (report : Report) (policy : ConflictPolicy) (g : Grammar) : List String :=
  match report with
  | .predictiveTable =>
    match g.predictiveTable policy with
    | .error (.conflicts list) => list.map PredictConflict.message
    | _ => []
  | .actionTable =>
    match g.automaton.actionTable g with
    | .ok table =>
      (table.conflicts g).map fun c =>
        "SLR(1) conflict in state " ++ c.state.repr ++ " on " ++ c.terminal
    | .error _ => []
  | _ => []

/-- The tree of the tokens in a file. -/
def printParse (escape : String → String) (surroundings : Surroundings) (settings : Settings)
    (tokenFile : Option String) (g : Grammar) : Option Transcript :=
  match tokenFile with
  | none => some (.failed "parse needs a token file")
  | some path =>
    match surroundings.file path with
    | .error e => some (.failed e.message)
    | .ok text =>
      match g.predictiveTable settings.policy with
      | .error e => some (.failed e.message)
      | .ok table =>
        (g.parse table (.ofText text)).map fun outcome =>
          match outcome.result with
          | .ok tree => .printed [] (tree.render settings.format g escape)
          | .error e => .failed e.message

/-- One output.  `none` if the parse that it asks for never ends. -/
def Output.produce (escape : String → String) (output : Output) (surroundings : Surroundings)
    (settings : Settings) (tokenFile : Option String) (g : Grammar) : Option Transcript :=
  match output with
  | .parse => printParse escape surroundings settings tokenFile g
  | .report what =>
    match what.render settings.format g escape with
    | .error e => some (.failed e.message)
    | .ok text => some (.printed (what.logged settings.policy g) text)

/-- The grammar text: of the file, or of the standard input when there is no file. -/
def Surroundings.grammarText (surroundings : Surroundings) :
    Option String → Except ReadError String
  | some path => surroundings.file path
  | none => surroundings.input

/-- What the program prints for a request; `none` if it never ends. -/
def Request.answer (escape : String → String) (surroundings : Surroundings) :
    Request → Option Transcript
  | help => some ⟨0, helpText, ""⟩
  | print outputs settings grammarFile tokenFile =>
    match surroundings.grammarText grammarFile with
    | .error e => some (.failed e.message)
    | .ok text =>
      match Grammar.ofText text with
      | .error e => some (.failed e.message)
      | .ok g => Transcript.sequence (outputs.map fun output =>
          output.produce escape surroundings settings tokenFile g)

/-- The program: what it prints for its arguments; names are written in LaTeX by `escape`. -/
def commandLine (surroundings : Surroundings) (args : List String)
    (escape : String → String := Text.Tex.escape) : Option Transcript :=
  (Request.ofArguments args).answer escape surroundings

end GrammarTables
