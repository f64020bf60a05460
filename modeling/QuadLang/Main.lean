/-
The command line.

Reads the file that the arguments name and everything on the standard input, runs
the command, writes the object text and prints what was printed.
-/
import QuadLang.Command.Run

namespace QuadLang

partial def readRest (stream : IO.FS.Stream) (read : String) : IO String := do
  let line ← stream.getLine
  if line.isEmpty then return read
  readRest stream (read ++ line)

def readText? (path : String) : IO (Option String) := do
  try return some (← IO.FS.readFile path)
  catch _ => return none

end QuadLang

open QuadLang in
def main (args : List String) : IO UInt32 := do
  let (source, input) ← match Invocation.ofArguments args with
    | .run o => do
      let source ← readText? o.file
      let input ← if source.isSome then readRest (← IO.getStdin) "" else pure ""
      pure (source, input)
    | _ => pure (none, "")
  let r := Command.run (fun _ => source) args input
  if let some (path, text) := r.object then IO.FS.writeFile path text
  IO.print r.output
  IO.eprint r.complaints
  match r.fault with
  | none => return 0
  | some (.exit code) => return code.toUInt32
  | some f => do
    IO.eprintln f.message
    return 1
