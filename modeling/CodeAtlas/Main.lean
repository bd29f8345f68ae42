import CodeAtlas.Console.Arguments
import CodeAtlas.Console.Snapshot

/-!
# The program

Reads a snapshot of a machine from standard input, carries out the command of the command line on it
and prints what the command prints.
-/

section

open CodeAtlas

def runOn (invocation : Console.Invocation) (text : String) : Except Failure Unit × Console :=
  let host := Console.hostOf ((Json.parse? text).getD .null)
  let root := host.files.resolve (Path.ofText invocation.directory)
  (invocation.command.run root).run.run { host := host }

def main (words : List String) : IO UInt32 := do
  match Console.Invocation.ofWords? words with
  | none =>
    IO.eprintln Console.usage
    return 2
  | some invocation =>
    let input ← IO.getStdin
    let (result, console) := runOn invocation (← input.readToEnd)
    for printed in console.printed do
      for line in printed.lines do
        IO.println line
    for served in console.served do
      IO.println served.line
    match result with
    | .ok _ => return 0
    | .error (.exit code) => return UInt32.ofNat code.toNat
    | .error failure =>
      IO.eprintln failure.message
      return 1

end
