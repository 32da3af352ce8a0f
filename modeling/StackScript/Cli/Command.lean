import StackScript.Cli.Options
import StackScript.Diagnostic.Render
import StackScript.Session
import StackScript.Tree.Listing

/-! # Commands

What each command prints, given the files it can read and the lines of its standard input.
-/

namespace StackScript

/-- What a command finds around it. A read that fails gives the reason. -/
structure Host where
  readFile : String → Except String String
  /-- The lines of the standard input without their line ends. -/
  lines : List (Except String String)
  terminal : Bool := false

structure Exit where
  code : Nat
  out : String := ""
  err : String := ""
deriving DecidableEq, Repr

namespace Command

def version : String := "0.1.0-alpha.1"

def usage : String :=
  "Tern toolchain\n" ++
  "\n" ++
  "Usage: ternc <command> [options]\n" ++
  "\n" ++
  "Commands:\n" ++
  "  run <file.tern>      Compile and run a program\n" ++
  "  eval '<source>'      Run source text and print its value\n" ++
  "  repl                 Start an interactive session\n" ++
  "  disasm <file.tern>   Print the compiled bytecode\n" ++
  "  lex <file.tern>      Tokenize and display tokens\n" ++
  "  parse <file.tern>    Parse and display the syntax tree\n" ++
  "  explain <code>       Describe an error code (e.g., E6002)\n" ++
  "  help                 Show this help message\n" ++
  "  version              Show version information\n" ++
  "\n" ++
  "VM options (run, eval, repl):\n" ++
  "  --stack-size=<n>     Operand stack slots (default: 2048)\n" ++
  "  --max-frames=<n>     Maximum call depth (default: 1024)\n" ++
  "  --budget=<n>         Stop after <n> instructions\n" ++
  "\n" ++
  "Set TERN_LOG (or RUST_LOG) to enable tracing, e.g. TERN_LOG=tern_vm=trace\n"

/-- The rendered diagnostics of one source. -/
def report (host : Host) (path source : String) (ds : List Diagnostic) : String :=
  let r : Renderer := ⟨ColorMode.auto.enabled host.terminal, some ⟨path, Lines.ofText source⟩⟩
  r.report ds ds.length

def withFile (host : Host) (path : String) (next : String → Exit) : Exit :=
  match host.readFile path with
  | .ok source => next source
  | .error reason => ⟨1, "", "error: cannot read '" ++ path ++ s!"': {reason}\n"⟩

def runFile (host : Host) (path : String) (limits : Limits) : Exit :=
  withFile host path fun source =>
    let e := runSource source limits
    match e.result with
    | .ok _ => ⟨0, e.output, ""⟩
    | .error ds => ⟨1, e.output, report host path source ds⟩

def evalSource (host : Host) (source : String) (limits : Limits) : Exit :=
  let e := runSource source limits
  match e.result with
  | .ok v => ⟨0, e.output ++ v.display ++ "\n", ""⟩
  | .error ds => ⟨1, e.output, report host "<eval>" source ds⟩

/-- What an entry of a session prints to the two outputs. -/
def replEntry (host : Host) (s : Session) (line : String) : Session × String × String :=
  if (trimBlanks line.toList).isEmpty then (s, "", "")
  else
    let (e, s) := s.eval line
    match e.result with
    | .ok v => (s, e.output ++ v.display ++ "\n", "")
    | .error ds => (s, e.output, report host "<repl>" line ds)

def replError (reason : String) : String := s!"error: cannot read input: {reason}\n"

def replLines (host : Host) (s : Session) (exit : Exit) : List (Except String String) → Exit
  | [] => exit
  | .error reason :: _ => { exit with code := 1, err := exit.err ++ replError reason }
  | .ok line :: rest =>
    let (s, out, err) := replEntry host s line
    replLines host s ⟨0, exit.out ++ out, exit.err ++ err⟩ rest

def repl (host : Host) (limits : Limits) : Exit :=
  match Session.start limits with
  | .error e => ⟨1, "", report host "<repl>" "" [e.diagnostic]⟩
  | .ok s => replLines host s ⟨0, "", ""⟩ host.lines

def disasm (host : Host) (path : String) : Exit :=
  withFile host path fun source =>
    match compileSource source with
    | .ok program => ⟨0, program.listing, ""⟩
    | .error ds => ⟨1, "", report host path source ds⟩

def lexFile (host : Host) (path : String) : Exit :=
  withFile host path fun source =>
    let lexed := lex source
    let header := "Tokens for '" ++ path ++ s!"' ({lexed.tokens.size} tokens):\n"
    let line (t : Token) := s!"  {t.kind.listing} @ {t.span.text}\n"
    let out := header ++ String.join (lexed.tokens.toList.map line)
    if lexed.hasErrors then
      ⟨1, out, report host path source (lexed.errors.toList.map (·.diagnostic))⟩
    else ⟨0, out, ""⟩

def parseFile (host : Host) (path : String) : Exit :=
  withFile host path fun source =>
    match parseSource source with
    | .ok program =>
      let count := program.statements.length
      ⟨0, "Parse result for '" ++ path ++ s!"':\n  Statements: {count}\n" ++
        String.join (program.statements.map fun s => "\n" ++ s.listing ++ "\n"), ""⟩
    | .error ds => ⟨1, "", report host path source ds⟩

def explain (text : String) : Exit :=
  match ErrorCode.ofText? text with
  | some code => ⟨0, s!"{code.text}: {code.description}\n", ""⟩
  | none =>
    ⟨1, "", s!"Unknown error code: {text}\n\n" ++
      "Codes have the format EXXXX, where the first digit names the phase:\n" ++
      "  E0 lexer, E1 parser, E3 compiler, E5 linker, E6 runtime, E9 internal\n"⟩

/-- What follows the last dot of the last part of a path, unless that part begins with the dot. -/
def extension? (path : String) : Option (List Char) :=
  let parts := (path.splitOn "/").filter fun p => p != "" && p != "."
  match parts.getLast? with
  | none => none
  | some name =>
    if name == ".." then none
    else
      let reversed := name.toList.reverse
      match reversed.dropWhile (· != '.') with
      | [] | [_] => none
      | _ => some (reversed.takeWhile (· != '.')).reverse

/-- Whether a path names a source file. -/
def isSourcePath (path : String) : Bool :=
  match extension? path with
  | some e => String.ofList (e.map Char.toLower) == "tern"
  | none => false

def usageError (command operand : String) : Exit :=
  ⟨1, "", s!"Usage: ternc {command} {operand}\n"⟩

def withOptions (command : String) (args : List String) (next : Options → Exit) : Exit :=
  match Options.parse args with
  | .error e => ⟨1, "", s!"error: {e.message}\n"⟩
  | .ok options =>
    if options.inputs.length == (if command == "repl" then 0 else 1) then next options
    else
      usageError command (match command with
        | "run" => "<file.tern> [options]"
        | "eval" => "'<source>' [options]"
        | _ => "[options]")

def withPath (command : String) (args : List String) (next : String → Exit) : Exit :=
  match args with
  | [path] => next path
  | _ => usageError command "<file.tern>"

def path? : List String → Option String
  | [] => none
  | command :: args =>
    match command with
    | "run" =>
      match Options.parse args with
      | .ok options => options.inputs.head?
      | .error _ => none
    | "disasm" | "lex" | "parse" => args.head?
    | _ => if isSourcePath command then some command else none

def run (host : Host) : List String → Exit
  | [] => ⟨0, usage, ""⟩
  | command :: args =>
    match command with
    | "run" =>
      withOptions command args fun o => runFile host (o.inputs.headD "") o.limits
    | "eval" =>
      withOptions command args fun o => evalSource host (o.inputs.headD "") o.limits
    | "repl" => withOptions command args fun o => repl host o.limits
    | "disasm" => withPath command args (disasm host)
    | "lex" => withPath command args (lexFile host)
    | "parse" => withPath command args (parseFile host)
    | "--explain" | "explain" =>
      match args with
      | [] => ⟨1, "", "Usage: ternc explain <ERROR_CODE>\nExample: ternc explain E6002\n"⟩
      | text :: _ => explain text
    | "help" | "--help" | "-h" => ⟨0, usage, ""⟩
    | "version" | "--version" | "-V" => ⟨0, s!"ternc {version}\n", ""⟩
    | _ =>
      if isSourcePath command then runFile host command {}
      else ⟨1, usage, s!"Unknown command: {command}\n\n"⟩

end Command

end StackScript
