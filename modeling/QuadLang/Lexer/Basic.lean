/-
Lexers that are made from rules.

A lexer has conditions, each with its own rules: patterns whose alternatives are
named groups, characters that are passed over, an action for characters that fit
no rule and an action for the end of the text.  A rule gives a kind of token, or
passes its text over, or leaves the token to an action.

Design notes: the rules in force are kept apart from the rules of the conditions,
because a lexer whose rules are exchanged goes on with the old ones until it
enters a condition again.
-/
import QuadLang.Datum
import QuadLang.FaultKind
import QuadLang.Number.Numeral
import QuadLang.Pattern.Basic
import QuadLang.Table

namespace QuadLang

/-- What the function of a rule does with the token that it is given. -/
inductive LexAction where
  | keep
  | drop
  /-- Read the text as an integer. -/
  | toInt
  | retype (kind : String)
  /-- Count the text as line ends. -/
  | newline
  | enter (condition : String)
  | push (condition : String)
  | pop
  /-- Pass over characters. -/
  | skip (n : Int)
  /-- Pass over characters and keep the token, with as much text. -/
  | cut (n : Int)
  /-- Go on with more text, `n` times at most; `name` tells whose turns count. -/
  | more (name : String) (n : Nat)
deriving Repr, DecidableEq

/-- The action of a name; a number, a kind or a condition stands after a colon.
`owner` is the rule that the action belongs to. -/
def LexAction.ofText (owner s : String) : LexAction :=
  let (word, rest) := Text.cutAt ':' s
  match word with
  | "drop" => .drop
  | "int" => .toInt
  | "type" => .retype rest
  | "newline" => .newline
  | "begin" => .enter rest
  | "push" => .push rest
  | "pop" => .pop
  | "skip" => .skip (rest.toInt?.getD 0)
  | "skiptok" => .cut (rest.toInt?.getD 0)
  | "more" => .more owner (rest.toNat?.getD 0)
  | _ => .keep

namespace Lexer

structure Token where
  kind : String
  value : Datum
  line : Int
  position : Int
deriving Repr

inductive Fault where
  | numeral (fault : Number.NumeralFault)
  | noCondition (name : String)
  | popEmpty
  | illegal (c : Char) (position : Int)
  /-- The action for errors did not move on. -/
  | stuck (c : Char)
  | noText
  /-- A position before the beginning of the text. -/
  | noChar
  /-- A match that ends with no group, or with one that is no rule. -/
  | noGroup
  | noRule
  | groupOutOfRange
  /-- A condition without an action for errors, when the rules are exchanged. -/
  | noHandler
  /-- The rules never reach the next token. -/
  | endless
deriving Repr

def Fault.message : Fault → String
  | .numeral f => f.message
  | .noCondition name => "Undefined state " ++ Text.quote name
  | .popEmpty => "pop from empty list"
  | .illegal c position =>
    "Illegal character " ++ Text.quote (String.singleton c) ++ " at index " ++ toString position
  | .stuck c => "Scanning error. Illegal character " ++ Text.quote (String.singleton c)
  | .noText => "No input string given with input()"
  | .noChar => "string index out of range"
  | .noGroup => "list indices must be integers or slices, not NoneType"
  | .noRule => "cannot unpack non-iterable NoneType object"
  | .groupOutOfRange => "list index out of range"
  | .noHandler => "'NoneType' object has no attribute '__name__'"
  | .endless => "the lexer does not end"

def Fault.kind : Fault → FaultKind
  | .numeral _ | .noCondition _ => .value
  | .popEmpty | .noChar | .groupOutOfRange => .index
  | .illegal .. | .stuck _ => .scanning
  | .noText => .missingText
  | .noHandler => .part
  | .noGroup | .noRule => .type
  | .endless => .timeout

/-- What a match of a rule leads to: an action, or a token of a kind, or neither
when the text is passed over. -/
structure Rule where
  action : Option LexAction
  kind : Option String
deriving Repr

/-- Rules that are tried together: a pattern and the rules of its groups, by their
number. -/
structure Master where
  text : String
  pattern : Pattern
  names : List (Option String)
  rules : List (Option Rule)
deriving Repr

def Master.rule (m : Master) (group : Option Nat) : Except Fault Rule :=
  match group with
  | none => .error .noGroup
  | some i =>
    match m.rules[i]? with
    | none => .error .groupOutOfRange
    | some none => .error .noRule
    | some (some r) => .ok r

end Lexer

/-- A lexer: its conditions, the condition that it is in, and its text. -/
structure Lexer where
  conditions : Table (List Lexer.Master)
  /-- The patterns of the conditions as they were written. -/
  written : Table (List Lexer.Master)
  ignored : Table String
  /-- The actions for errors; a condition may be listed without one. -/
  handlers : Table (Option LexAction)
  endings : Table LexAction
  literals : String
  /-- The condition that the lexer is in, and what is in force there. -/
  condition : String
  masters : List Lexer.Master
  ignore : String
  handler : Option LexAction
  ending : Option LexAction
  /-- The conditions to return to, latest first. -/
  stack : List String
  text : Option (List Char)
  position : Int
  line : Int
  /-- How often each action has gone on with more text. -/
  turns : Table Nat
deriving Repr

abbrev Lex (α : Type) := ExceptT Lexer.Fault (StateM Lexer) α

namespace Lexer

/-- The condition in which every lexer begins. -/
def initial : String := "INITIAL"

def length (l : Lexer) : Nat := ((l.text.map List.length).getD 0)

def input (l : Lexer) (s : String) : Lexer := { l with text := some s.toList, position := 0 }

def enter (name : String) : Lex Unit := do
  let l ← get
  match l.conditions.get? name with
  | none => throw (.noCondition name)
  | some masters =>
    set { l with
      condition := name, masters, ignore := (l.ignored.get? name).getD ""
      handler := (l.handlers.get? name).join, ending := l.endings.get? name }

def push (name : String) : Lex Unit := do
  modify fun l => { l with stack := l.condition :: l.stack }
  enter name

def pop : Lex Unit := do
  match (← get).stack with
  | [] => throw .popEmpty
  | name :: stack =>
    modify fun l => { l with stack }
    enter name

def skip (n : Int) (l : Lexer) : Lexer := { l with position := l.position + n }

/-- Another lexer that returns to the same conditions as this one. -/
def share (l other : Lexer) : Lexer := { other with stack := l.stack, turns := l.turns }

/-- A lexer with the same rules, as the rules of other functions.  Of each
condition only the last patterns are kept. -/
def exchanged (l : Lexer) : Except Fault Lexer :=
  if l.handlers.any (·.2.isNone) then .error .noHandler
  else .ok { l with conditions := l.conditions.map fun (name, ms) =>
    (name, match ms.getLast? with
      | some m => [m]
      | none => []) }

/-- A position as an index: before the beginning it counts from the end. -/
def index? (length : Nat) (position : Int) : Option Nat :=
  if 0 ≤ position then some position.toNat
  else if -position ≤ length then some (length - (-position).toNat)
  else none

def charAt? (cs : List Char) (position : Int) : Option Char :=
  (index? cs.length position).bind (cs[·]?)

def textFrom (cs : List Char) (position : Int) : String :=
  String.ofList (cs.drop ((index? cs.length position).getD 0))

/-- The first `n` characters; all but the last `-n` when `n` is negative. -/
def cutText (s : String) (n : Int) : String :=
  let cs := s.toList
  String.ofList (cs.take (if 0 ≤ n then n.toNat else cs.length - (-n).toNat))

/-- The first rules that match at a position: the rules, the end of the match and
the group closed last. -/
def matchAt (l : Lexer) (cs : List Char) (position : Int) :
    Option (Master × Int × Option Nat) :=
  let start := position.toNat
  let before := (cs.take start).reverse
  let rest := cs.drop start
  l.masters.findSome? fun m =>
    (m.pattern.matchAt before rest).map fun (count, group) => (m, (start + count : Nat), group)

end Lexer

end QuadLang
