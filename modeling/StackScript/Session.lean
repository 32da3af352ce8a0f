import StackScript.Machine.Run
import StackScript.Token.Lexer
import StackScript.Tree.Parser

/-! # Evaluating sources

From source text to a value. A phase runs only when the phases before it found no error. A session
keeps names, constants and globals from one entry to the next.
-/

namespace StackScript

/-- The tree of a source, or what the lexer found wrong, or else what the parser did. -/
def parseSource (source : String) : Except (List Diagnostic) Program :=
  let lexed := lex source
  if lexed.hasErrors then .error (lexed.errors.toList.map (·.diagnostic))
  else
    let parsed := parse lexed.tokens.toList
    if parsed.hasErrors then .error (parsed.errors.toList.map (·.diagnostic))
    else .ok parsed.program

/-- The name of a unit compiled from a source. -/
def unitName : String := "main"

def compileDiagnostics (errors : Array CompileError) : List Diagnostic :=
  errors.toList.map (·.diagnostic)

def compileSource (source : String) : Except (List Diagnostic) Linked := do
  let program ← parseSource source
  let object ← (compile program unitName).mapError compileDiagnostics
  (link [object]).mapError fun e => [e.diagnostic]

/-- A value or diagnostics, and what the program printed. -/
structure Evaluation where
  result : Except (List Diagnostic) Value
  output : String := ""

/-- The evaluation that a finished run amounts to. -/
def Machine.evaluation (outcome : Outcome) (m : Machine) : Evaluation :=
  match outcome with
  | .failed e => ⟨.error [e.diagnostic], m.output⟩
  | _ => ⟨.ok m.lastPopped, m.output⟩

/-- Compile and run a source; its value is that of its last expression. -/
def runSource (source : String) (limits : Limits) : Evaluation :=
  match compileSource source with
  | .error ds => ⟨.error ds, ""⟩
  | .ok program =>
    match Machine.start program limits #[] firstStamp with
    | .error e => ⟨.error [e.diagnostic], ""⟩
    | .ok m =>
      let (outcome, m) := m.run
      m.evaluation outcome

structure Session where
  compiler : Compiler := {}
  globals : Array Value := #[]
  limits : Limits
  nextStamp : Nat := firstStamp

namespace Session

def start (limits : Limits) : Except LimitsError Session := do
  limits.validate
  return { limits := limits }

/-- Evaluate an entry. One that does not compile changes nothing; one that fails as it runs keeps
what it wrote before. -/
def eval (s : Session) (source : String) : Evaluation × Session :=
  match parseSource source with
  | .error ds => (⟨.error ds, ""⟩, s)
  | .ok program =>
    match s.compiler.compile program unitName with
    | (.error errors, _) => (⟨.error (compileDiagnostics errors), ""⟩, s)
    | (.ok object, compiler) =>
      let s := { s with compiler := compiler }
      match link [object] with
      | .error e => (⟨.error [e.diagnostic], ""⟩, s)
      | .ok program =>
        match Machine.start program s.limits s.globals s.nextStamp with
        | .error e => (⟨.error [e.diagnostic], ""⟩, s)
        | .ok m =>
          let (outcome, m) := m.run
          (m.evaluation outcome, { s with globals := m.globals, nextStamp := m.nextStamp })

end Session

end StackScript
