/-
Compiling a program.

The tokens of a source are parsed with the tables of its dialect; every
completed rule does its step.  The first token that fits nowhere stops the
compilation, and so does the first step that fails.

Design notes: `Parsing.advance` is one shift or one reduction.  A state in which
only one reduction is possible reduces before the next token is read, so reports
of illegal characters come after what the reduction prints.
-/
import QuadLang.Dialect.Rules

namespace QuadLang

/-- The tables over the coded rules of a dialect. -/
def Dialect.makeTables (d : Dialect) : Lalr.Tables :=
  match d.coded with
  | some rules => Lalr.Tables.build rules
  | none => { rules := ⟨#[], #[], [], [], [], 0, 0⟩, states := #[], rows := #[], stopped := none }

def plainTables : Lalr.Tables := Dialect.plain.makeTables

def gooseTables : Lalr.Tables := Dialect.goose.makeTables

def Dialect.tables : Dialect → Lalr.Tables
  | .plain => plainTables
  | .goose => gooseTables

/-- A token that has been read and not yet shifted: its code and, unless it is
the end, the token. -/
structure Ahead where
  code : Nat
  token : Option Token
deriving Repr

structure Parsing where
  scanner : Scanner
  ahead : Option Ahead
  /-- States with the values of their symbols, top first. -/
  stack : List (Nat × Option Literal)
  compiler : Compiler
deriving Repr

inductive Progress where
  | more (p : Parsing)
  | accepted (p : Parsing)
  | failed (p : Parsing) (fault : CompileFault)
deriving Repr

namespace Parsing

def start (scanner : Scanner) (compiler : Compiler) : Parsing :=
  { scanner, ahead := none, stack := [(0, none)], compiler }

def state (p : Parsing) : Nat := (p.stack.head?.map (·.1)).getD 0

/-- Read the next token, unless one is waiting. -/
def look (t : Lalr.Tables) (p : Parsing) : Parsing × Except CompileFault Ahead :=
  match p.ahead with
  | some a => (p, .ok a)
  | none =>
    let (reports, result, scanner) := p.scanner.next
    let p := { p with
      scanner, compiler := { p.compiler with printed := reports.reverse ++ p.compiler.printed } }
    match result with
    | .error f => (p, .error (.badNumeral f))
    | .ok none =>
      let a : Ahead := { code := t.rules.endMark, token := none }
      ({ p with ahead := some a }, .ok a)
    | .ok (some token) =>
      let a : Ahead := { code := t.rules.names.idxOf token.kind, token := some token }
      ({ p with ahead := some a }, .ok a)

def reduce (d : Dialect) (t : Lalr.Tables) (p : Parsing) (rule : Nat) : Progress :=
  let n := (t.rules.right rule).length
  let args := (p.stack.take n).reverse.map (·.2)
  let rest := p.stack.drop n
  let before := (rest.head?.map (·.2)).join
  let (result, compiler) := (Compile.perform before args (d.stepOf rule)).run p.compiler
  let p := { p with compiler, stack := rest }
  match result with
  | .error fault => .failed p fault
  | .ok value =>
    match t.goto? p.state (t.rules.left rule) with
    | some state => .more { p with stack := (state, value) :: rest }
    | none => .failed p .endless

def misfit : Option Token → CompileFault
  | some token => .badToken token.line token.value.plainText
  | none => .unexpectedEnd

def advance (d : Dialect) (t : Lalr.Tables) (p : Parsing) : Progress :=
  match t.defaulted? p.state with
  | some rule => p.reduce d t rule
  | none =>
    match p.look t with
    | (p, .error fault) => .failed p fault
    | (p, .ok a) =>
      match t.action? p.state a.code with
      | some (.shift state) =>
        .more { p with ahead := none, stack := (state, a.token.map (·.value)) :: p.stack }
      | some (.reduce rule) => p.reduce d t rule
      | some .accept => .accepted p
      | some .refuse | none => .failed p (misfit a.token)

def advances (d : Dialect) (t : Lalr.Tables) : Nat → Parsing → Parsing × Option CompileFault
  | 0, p => (p, some .endless)
  | n + 1, p =>
    match p.advance d t with
    | .more p => advances d t n p
    | .accepted p => (p, none)
    | .failed p fault => (p, some fault)

/-- More steps than a source with `n` pieces can take. -/
def stepLimit (n : Nat) : Nat := 1000 * (n + 2) * (n + 2)

end Parsing

/-- Compile the source that a scanner stands before. -/
def compile (scanner : Scanner) (compiler : Compiler) : Parsing × Option CompileFault :=
  (Parsing.start scanner compiler).advances scanner.dialect scanner.dialect.tables
    (Parsing.stepLimit scanner.pieces.length)

end QuadLang
