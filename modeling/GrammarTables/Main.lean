import GrammarTables.CommandLine

/-!
# Main — the program's contact with the world

Reads what a request names, hands it to the pure program, and prints the transcript.
-/

namespace GrammarTables

/-- The text of a file. -/
def readText (path : String) : IO (Except ReadError String) := do
  try
    return decodeText (← IO.FS.readBinFile path)
  catch e =>
    let coded (code : UInt32) (details : String) : Except ReadError String :=
      .error (.system (details ++ " (os error " ++ toString code ++ ")"))
    match e with
    | .noFileOrDirectory .. => return .error .missing
    | .permissionDenied _ code details | .inappropriateType _ code details =>
      return coded code details
    | e => return .error (.system (toString e))

/-- The text of the standard input. -/
partial def readInput : IO (Except ReadError String) := do
  let stream ← IO.getStdin
  let rec loop (bytes : ByteArray) : IO ByteArray := do
    let more ← stream.read 65536
    if more.isEmpty then return bytes else loop (bytes ++ more)
  return decodeText (← loop .empty)

/-- What a request can read, as far as it reads at all. -/
def Request.surroundings : Request → IO Surroundings
  | .help => return ⟨fun _ => .error .missing, .error .missing⟩
  | .print _ _ grammarFile tokenFile => do
    let paths := grammarFile.toList ++ tokenFile.toList
    let texts ← paths.mapM fun path => return (path, ← readText path)
    let input ← if grammarFile.isSome then pure (.error .missing) else readInput
    return ⟨fun path => (texts.lookup path).getD (.error .missing), input⟩

end GrammarTables

open GrammarTables in
def main (args : List String) : IO UInt32 := do
  let request := Request.ofArguments args
  match request.answer Text.Tex.escape (← request.surroundings) with
  | none => return 1
  | some transcript =>
    IO.print transcript.stdout
    IO.eprint transcript.stderr
    return transcript.code.toUInt32
