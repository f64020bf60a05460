/-
Parsers with actions and recovery from errors.

A parser has tables, an action for every rule and perhaps a handler that is told
about errors.  The actions and handlers are those that there is a use for: they
build trees, show positions, and try the ways to recover from an error.
-/
import QuadLang.Datum
import QuadLang.FaultKind
import QuadLang.Grammar.Basic
import QuadLang.Lalr.Tables

namespace QuadLang

/-- A symbol on the stack of a parser, or before it: a token, or what a rule
made.  The symbol at the bottom and the end of the input have no value. -/
structure ParseSymbol where
  kind : String
  isToken : Bool
  value : Option Datum
  line : Option Int
  lastLine : Option Int
  position : Option Int
  lastPosition : Option Int
deriving Repr, Inhabited

namespace ParseSymbol

def plain (kind : String) (value : Option Datum) : ParseSymbol :=
  { kind, isToken := false, value, line := none, lastLine := none, position := none,
    lastPosition := none }

def endSymbol : ParseSymbol := plain endName none

def token (kind : String) (value : Datum) (line : Option Int) (position : Int) : ParseSymbol :=
  { kind, isToken := true, value := some value, line, lastLine := none, position := some position,
    lastPosition := none }

def datum (s : ParseSymbol) : Datum :=
  if s.isToken then .token s.kind (s.value.getD .none) s.line (s.position.getD 0) else .symbol s.kind

end ParseSymbol

inductive RuleAction where
  /-- A list of the name of the rule and the values of its symbols. -/
  | tree
  /-- The value of the first symbol. -/
  | first
  /-- The number of symbols. -/
  | count
  | nothing
  /-- An error. -/
  | fail
  /-- The places of all symbols, and a tree. -/
  | span
  /-- A place for the rule, and a tree. -/
  | setPlace
  /-- The value of a symbol that stands before the rule. -/
  | before (k : Nat)
  /-- The end of recovery, and a tree. -/
  | recovered
  /-- The values of ranges of symbols. -/
  | slices
deriving Repr, DecidableEq

def RuleAction.ofText (s : String) : RuleAction :=
  let (word, rest) := Text.cutAt ':' s
  match word with
  | "first" => .first
  | "count" => .count
  | "none" => .nothing
  | "fail" => .fail
  | "span" => .span
  | "setpos" => .setPlace
  | "before" => .before (rest.toNat?.getD 0)
  | "errok" => .recovered
  | "slice" => .slices
  | _ => .tree

inductive ErrorHandler where
  | nothing
  /-- Stop the parse. -/
  | stop
  /-- End the recovery. -/
  | recovered
  /-- Skip tokens up to one of a kind. -/
  | sync (kind : String)
  /-- Begin anew. -/
  | restart
  /-- Put a token of a kind before the one that does not fit. -/
  | insert (kind : String)
deriving Repr, DecidableEq

def ErrorHandler.ofText (s : String) : ErrorHandler :=
  let (word, rest) := Text.cutAt ':' s
  match word with
  | "raise" => .stop
  | "errok" => .recovered
  | "sync" => .sync rest
  | "restart" => .restart
  | "insert" => .insert rest
  | _ => .nothing

inductive ParseFault where
  | stopped (at_ : String)
  | noValue
  | noLine (isToken : Bool)
  | noPosition (isToken : Bool)
  | noEntry
  | noMove (name : String)
  /-- The parse took more steps than it may. -/
  | endless
deriving Repr, DecidableEq

/-- The text of a missing part of a symbol. -/
def missingPart (isToken : Bool) (part : String) : String :=
  "'" ++ (if isToken then "LexToken" else "YaccSymbol") ++ "' object has no attribute '" ++ part ++ "'"

def ParseFault.message : ParseFault → String
  | .stopped s => "syntax error at " ++ s
  | .noValue => missingPart false "value"
  | .noLine t => missingPart t "lineno"
  | .noPosition t => missingPart t "lexpos"
  | .noEntry => "list index out of range"
  | .noMove n => Text.quote n
  | .endless => "the parser does not end"

def ParseFault.kind : ParseFault → FaultKind
  | .noValue | .noLine _ | .noPosition _ => .part
  | .noEntry => .index
  | .noMove _ => .key
  | _ => .general

structure Parser where
  tables : Lalr.Tables
  /-- The rules by number, each with its action. -/
  rules : Array (Production × RuleAction)
  handler : Option ErrorHandler
  /-- Whether states with one possible reduction reduce before they look. -/
  defaulted : Bool
  /-- Whether rules get the places of their symbols. -/
  tracking : Bool
  /-- Whether to log every step. -/
  debug : Bool

/-- Something that a parse writes. -/
inductive ParseNote where
  /-- A line of the log. -/
  | logged (line : String)
  /-- A message that is always written. -/
  | warned (text : String)
deriving Repr, DecidableEq

structure ParseState where
  tokens : List ParseSymbol
  /-- The line and the position of the token that was read last. -/
  lastLine : Int
  lastPosition : Int
  ahead : Option ParseSymbol
  /-- The symbols to read before the next token; a missing one is the end. -/
  pushed : List (Option ParseSymbol)
  state : Nat
  /-- The states and symbols, top first. -/
  states : List Nat
  symbols : List ParseSymbol
  /-- How many symbols have to be shifted before errors are reported again. -/
  errorCount : Nat
  errorOk : Bool
  /-- What actions and handlers did, latest first. -/
  trace : List Datum
  /-- What was written, latest first. -/
  notes : List ParseNote

abbrev Parse (α : Type) := ExceptT ParseFault (StateM ParseState) α

end QuadLang
