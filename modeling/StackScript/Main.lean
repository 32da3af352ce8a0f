import StackScript.Cli.Command
import StackScript.Cli.Input

/-! # The command line program

Reads files and the standard input, and writes what the commands print.
-/

namespace StackScript.Main

/-- The text and the number of an operating system error. -/
def osReason (code : UInt32) (details : String) : String :=
  let n := code.toNat
  let number := if n < 1 <<< 31 then n else 1 <<< 32 - n
  s!"{details.capitalize} (os error {number})"

def reason : IO.Error → String
  | .noFileOrDirectory _ code details => osReason code details
  | .inappropriateType _ code details => osReason code details
  | .permissionDenied _ code details => osReason code details
  | e => toString e

def readFile (path : String) : IO (Except String String) := do
  try
    return Input.decode (← IO.FS.readBinFile path)
  catch e =>
    return .error (reason e)

/-- Prompt for entries and evaluate each as it comes. -/
partial def interact (host : Host) (s : Session) : IO Unit := do
  IO.print ">> "
  (← IO.getStdout).flush
  let line ← (← IO.getStdin).getLine
  if line.isEmpty then return
  let entry := String.ofList (line.toList.reverse.dropWhile fun c => c == '\n' || c == '\r').reverse
  let (s, out, err) := Command.replEntry host s entry
  IO.print out
  IO.eprint err
  interact host s

/-- The host of a command: the file it names and the whole of its standard input are read
beforehand. -/
def hostFor (args : List String) : IO Host := do
  let terminal ← (← IO.getStderr).isTty
  let file ← match Command.path? args with
    | some path => readFile path
    | none => pure (.ok "")
  let lines ← if args.head? == some "repl" then
      pure (Input.lines (← (← IO.getStdin).readBinToEnd))
    else pure []
  return ⟨fun _ => file, lines, terminal⟩

end StackScript.Main

def main (args : List String) : IO UInt32 := do
  let interactive ← (← IO.getStdin).isTty
  match args, StackScript.Options.parse args.tail with
  | "repl" :: _, .ok options =>
    if interactive && options.inputs.isEmpty then
      let terminal ← (← IO.getStderr).isTty
      if let .ok s := StackScript.Session.start options.limits then
        StackScript.Main.interact ⟨fun _ => .error "", [], terminal⟩ s
        return 0
  | _, _ => pure ()
  let exit := StackScript.Command.run (← StackScript.Main.hostFor args) args
  IO.print exit.out
  IO.eprint exit.err
  return UInt32.ofNat exit.code
