/-
Compiling and running a source.

A `Session` is a source with everything that decides what happens to it; its
`Outcome` says how far it came and what was printed.  When tokens are listed
first, the lines go on counting from where the list ended.
-/
import QuadLang.Compile.Program
import QuadLang.Machine.Step

namespace QuadLang

structure Session where
  dialect : Dialect
  source : String
  input : String
  listTokens : Bool
  debugCompiler : Bool
  debugMachine : Bool
  compileOnly : Bool
  /-- The name of the object text, for messages. -/
  objectName : String

inductive Phase where
  | scanning
  | compiling
  | running
  | done
deriving Repr, DecidableEq

inductive SessionFault where
  | scan (fault : Number.NumeralFault)
  | compile (fault : CompileFault)
  | machine (fault : MachineFault)
  /-- The program was still running. -/
  | unfinished
deriving Repr

def SessionFault.message : SessionFault → String
  | .scan f => f.message
  | .compile f => f.message
  | .machine f => f.message
  | .unfinished => "the program does not end"

def SessionFault.kind : SessionFault → FaultKind
  | .scan _ => .value
  | .compile f => f.kind
  | .machine f => f.kind
  | .unfinished => .timeout

structure Outcome where
  phase : Phase
  fault : Option SessionFault
  /-- What was printed, latest first. -/
  printed : List String
  /-- The state of the compiler, once compiling began. -/
  compiler : Option Compiler
  /-- The object text, as a reader in text mode sees it. -/
  object : Option String
  /-- The state of the machine, if the object text could be loaded. -/
  machine : Option Machine

/-- The most quads that a session runs. -/
def quadLimit : Nat := Nat.pow 10 15

def runObject (debug : Bool) (object input : String) :
    List String × Option SessionFault × Option Machine :=
  match Machine.load debug object input with
  | (printed, .error f) => (printed, some (.machine f), none)
  | (_, .ok m) =>
    match m.run quadLimit with
    | (m, .finished) => (m.printed, none, some m)
    | (m, .failed f) => (m.printed, some (.machine f), some m)
    | (m, .unfinished) => (m.printed, some .unfinished, some m)

namespace Session

/-- Everything after the list of tokens. -/
def compileAndRun (s : Session) (printed : List String) (line : Nat) : Outcome :=
  let scanner := Scanner.ofSource s.dialect line s.source
  match compile scanner (Compiler.start s.debugCompiler s.objectName) with
  | (p, some f) =>
    { phase := .compiling, fault := some (.compile f), printed := p.compiler.printed ++ printed,
      compiler := some p.compiler, object := none, machine := none }
  | (p, none) =>
    let printed := p.compiler.printed ++ printed
    let object := Text.newlines (p.compiler.object.getD "")
    let compiled : Outcome :=
      { phase := .done, fault := none, printed, compiler := some p.compiler, object := some object,
        machine := none }
    if s.compileOnly then compiled
    else
      let (more, fault, machine) := runObject s.debugMachine object s.input
      { compiled with
        phase := if fault.isSome then .running else .done
        fault, machine, printed := more ++ printed }

def run (s : Session) : Outcome :=
  if s.listTokens then
    match (Scanner.ofSource s.dialect 1 s.source).listing with
    | (lines, some f, _) =>
      { phase := .scanning, fault := some (.scan f), printed := lines.reverse, compiler := none,
        object := none, machine := none }
    | (lines, none, scanner) => s.compileAndRun lines.reverse scanner.line
  else s.compileAndRun [] 1

end Session

def printedText (printed : List String) : String := String.join printed.reverse

end QuadLang
