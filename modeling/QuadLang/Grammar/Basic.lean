/-
Context-free grammars, production by production.

A `Grammar` grows by `addProduction`; production 0 is kept for the start rule
`S' -> start`, which `setStart` fills in.  Terminals and nonterminals are listed
in the order in which they were met, each with the numbers of the productions
that use it.  `GrammarFault` lists what can be refused, with one wording.

Design notes: an addition can fail after it has met new literals, so it returns
the grammar that is left together with the fault.
-/
import QuadLang.FaultKind
import QuadLang.Table
import QuadLang.Text.Lines
import QuadLang.Text.Literal
import QuadLang.Text.Quoted

namespace QuadLang

inductive Assoc where
  | left
  | right
  | nonassoc
deriving Repr, DecidableEq

def Assoc.name : Assoc → String
  | .left => "left"
  | .right => "right"
  | .nonassoc => "nonassoc"

def Assoc.ofName? : String → Option Assoc
  | "left" => some .left
  | "right" => some .right
  | "nonassoc" => some .nonassoc
  | _ => none

structure Precedence where
  assoc : Assoc
  level : Int
deriving Repr, DecidableEq

/-- What symbols and rules without a declared precedence have. -/
def Precedence.default : Precedence := { assoc := .right, level := 0 }

/-- A grammar rule: its number, left side, right side, precedence, the name of
its action and the place where it is written. -/
structure Production where
  number : Nat
  name : String
  symbols : List String
  precedence : Precedence
  action : Option String
  file : String
  line : Int
deriving Repr, DecidableEq

namespace Production

/-- The text `left -> right`. -/
def text (p : Production) : String :=
  if p.symbols.isEmpty then p.name ++ " -> <empty>"
  else p.name ++ " -> " ++ Text.join " " p.symbols

/-- The different symbols of the right side, in order of appearance. -/
def distinct (p : Production) : List String := p.symbols.eraseDups

/-- The right side with a dot before position `i`. -/
def dotted (p : Production) (i : Nat) : List String := p.symbols.take i ++ "." :: p.symbols.drop i

/-- The text of the item with its dot before position `i`. -/
def itemText (p : Production) (i : Nat) : String :=
  p.name ++ " -> " ++ Text.join " " (p.dotted i)

end Production

/-- The name of the nonterminal that is added above the start symbol. -/
def startName : String := "S'"

/-- The terminal that stands for the end of the input. -/
def endName : String := "$end"

/-- The terminal that stands for a stretch of input with an error. -/
def errorName : String := "error"

structure Grammar where
  /-- The rule `S' -> start`. -/
  root : Option Production
  /-- The productions from number 1 on. -/
  rules : List Production
  terminals : Table (List Nat)
  nonterminals : Table (List Nat)
  precedence : Table Precedence
  usedPrecedence : List String
  start : Option String
  first : Table (List String)
  follow : Table (List String)
  /-- How many productions had items when items were built last. -/
  built : Nat
  /-- Whether the start rule has items. -/
  rootBuilt : Bool
  /-- For each production the number of the state whose closure took it last,
  counted from 1. -/
  marks : List Nat
deriving Repr

inductive GrammarFault where
  | precedenceLate
  | precedenceTwice (terminal : String)
  | badAssociativity
  | nameIsToken (file : String) (line : Int) (name : String)
  | badName (file : String) (line : Int) (name : String)
  | emptySymbol
  | longLiteral (file : String) (line : Int) (symbol name : String)
  | badSymbol (file : String) (line : Int) (symbol name : String)
  | nothingAfterPrec (file : String) (line : Int)
  | precNotLast (file : String) (line : Int)
  | unknownPrec (file : String) (line : Int) (name : String)
  | duplicate (file : String) (line : Int) (earlier : Production)
  | startUndefined (name : String)
  | noProductions
deriving Repr, DecidableEq

def place (file : String) (line : Int) : String := file ++ ":" ++ toString line

def GrammarFault.message : GrammarFault → String
  | .precedenceLate => "Must call set_precedence() before add_production()"
  | .precedenceTwice t => "Precedence already specified for terminal " ++ Text.quote t
  | .badAssociativity => "Associativity must be one of 'left','right', or 'nonassoc'"
  | .nameIsToken f l n =>
    place f l ++ ": Illegal rule name " ++ Text.quote n ++ ". Already defined as a token"
  | .badName f l n => place f l ++ ": Illegal rule name " ++ Text.quote n
  | .emptySymbol => "string index out of range"
  | .longLiteral f l s n => place f l ++ ": Literal token " ++ s ++ " in rule " ++ Text.quote n ++
    " may only be a single character"
  | .badSymbol f l s n => place f l ++ ": Illegal name " ++ Text.quote s ++ " in rule " ++ Text.quote n
  | .nothingAfterPrec f l => place f l ++ ": Syntax error. Nothing follows %prec"
  | .precNotLast f l =>
    place f l ++ ": Syntax error. %prec can only appear at the end of a grammar rule"
  | .unknownPrec f l n => place f l ++ ": Nothing known about the precedence of " ++ Text.quote n
  | .duplicate f l p => place f l ++ ": Duplicate rule " ++ p.text ++ ". Previous definition at " ++
    place p.file p.line
  | .startUndefined n => "start symbol " ++ n ++ " undefined"
  | .noProductions => "list index out of range"

def GrammarFault.kind : GrammarFault → FaultKind
  | .precedenceLate => .order
  | .emptySymbol | .noProductions => .index
  | _ => .grammar

/-- The mark before the name of a precedence. -/
def precMark : String := "%prec"

/-- Whether a text is a name: ASCII letters, digits, `_` and `-`, at least one,
and possibly a line feed after them. -/
def isSymbolName (s : String) : Bool :=
  let cs := s.toList
  let cs := if cs.getLast? == some '\n' then cs.dropLast else cs
  !cs.isEmpty && cs.all fun c => c.isAlphanum || c == '_' || c == '-'

def lastTerminal? (isTerminal : String → Bool) (symbols : List String) : Option String :=
  symbols.reverse.find? isTerminal

namespace Grammar

def ofTerminals (terminals : List String) : Grammar where
  root := none
  rules := []
  terminals := (terminals ++ [errorName]).foldl (fun t n => t.put n []) []
  nonterminals := []
  precedence := []
  usedPrecedence := []
  start := none
  first := []
  follow := []
  built := 0
  rootBuilt := false
  marks := []

def isTerminal (g : Grammar) (s : String) : Bool := g.terminals.has s

def isNonterminal (g : Grammar) (s : String) : Bool := g.nonterminals.has s

/-- All productions that there are, by number; number 0 may be missing. -/
def productions (g : Grammar) : List (Option Production) := g.root :: g.rules.map some

def productionsOf (g : Grammar) (name : String) : List Production :=
  g.rules.filter (·.name == name)

def isDefined (g : Grammar) (name : String) : Bool := g.rules.any (·.name == name)

/-- Declare the precedence of a terminal, before the first production. -/
def setPrecedence (g : Grammar) (terminal assoc : String) (level : Int) :
    Except GrammarFault Grammar :=
  if g.root.isSome || !g.rules.isEmpty then .error .precedenceLate
  else if g.precedence.has terminal then .error (.precedenceTwice terminal)
  else match Assoc.ofName? assoc with
    | none => .error .badAssociativity
    | some assoc => .ok { g with precedence := g.precedence.put terminal { assoc, level } }

/-- Replace quoted symbols by their characters, which become terminals, and
check the names of the others. -/
def readSymbols (g : Grammar) (file : String) (line : Int) (name : String) :
    List String → Grammar × Except GrammarFault (List String)
  | [] => (g, .ok [])
  | s :: rest =>
    match s.toList.head? with
    | none => (g, .error .emptySymbol)
    | some c =>
      match if c == '\'' || c == '"' then Text.readLiteral s else none with
      | some literal =>
        if literal.length > 1 then (g, .error (.longLiteral file line s name))
        else
          let g := if g.isTerminal literal then g
            else { g with terminals := g.terminals.put literal [] }
          let (g, more) := g.readSymbols file line name rest
          (g, more.map (literal :: ·))
      | none =>
        if !isSymbolName s && s != precMark then (g, .error (.badSymbol file line s name))
        else
          let (g, more) := g.readSymbols file line name rest
          (g, more.map (s :: ·))

/-- The precedence of a rule: that of the name after the precedence mark, which
is taken off, or that of the last terminal. -/
def readPrecedence (g : Grammar) (file : String) (line : Int) (symbols : List String) :
    Except GrammarFault (Grammar × List String × Precedence) :=
  if symbols.contains precMark then
    match symbols.reverse with
    | last :: before :: rest =>
      if last == precMark then .error (.nothingAfterPrec file line)
      else if before != precMark then .error (.precNotLast file line)
      else match g.precedence.get? last with
        | none => .error (.unknownPrec file line last)
        | some p =>
          let used := if g.usedPrecedence.contains last then g.usedPrecedence
            else g.usedPrecedence ++ [last]
          .ok ({ g with usedPrecedence := used }, rest.reverse, p)
    | _ => .error (.nothingAfterPrec file line)
  else
    let p := (lastTerminal? g.isTerminal symbols).bind g.precedence.get?
    .ok (g, symbols, p.getD .default)

def noteUse (number : Nat) (g : Grammar) (symbol : String) : Grammar :=
  if g.isTerminal symbol then
    { g with terminals := g.terminals.put symbol ((g.terminals.get? symbol).getD [] ++ [number]) }
  else
    { g with nonterminals :=
        g.nonterminals.put symbol ((g.nonterminals.get? symbol).getD [] ++ [number]) }

/-- Add a production whose symbols are written as in a rule: quoted characters
are terminals, and a precedence may be set at the end. -/
def addProduction (g : Grammar) (name : String) (symbols : List String) (action : Option String)
    (file : String) (line : Int) : Grammar × Option GrammarFault :=
  if g.isTerminal name then (g, some (.nameIsToken file line name))
  else if !isSymbolName name then (g, some (.badName file line name))
  else
    match g.readSymbols file line name symbols with
    | (g, .error e) => (g, some e)
    | (g, .ok symbols) =>
      match g.readPrecedence file line symbols with
      | .error e => (g, some e)
      | .ok (g, symbols, precedence) =>
        match g.rules.find? fun p => p.name == name && p.symbols == symbols with
        | some earlier => (g, some (.duplicate file line earlier))
        | none =>
          let number := g.rules.length + 1
          let g := if g.isNonterminal name then g
            else { g with nonterminals := g.nonterminals ++ [(name, [])] }
          let g := symbols.foldl (noteUse number) g
          let p := { number, name, symbols, precedence, action, file, line }
          ({ g with rules := g.rules ++ [p] }, none)

/-- Choose the start symbol, by default the left side of the first production,
and make the start rule. -/
def setStart (g : Grammar) (start : Option String) : Except GrammarFault Grammar :=
  let chosen := match start with
    | some "" | none => g.rules.head?.map (·.name)
    | some s => some s
  match chosen with
  | none => .error .noProductions
  | some s =>
    match g.nonterminals.get? s with
    | none => .error (.startUndefined s)
    | some uses =>
      .ok { g with
        root := some { number := 0, name := startName, symbols := [s], precedence := .default,
                       action := none, file := "", line := 0 }
        nonterminals := g.nonterminals.put s (uses ++ [0])
        start := some s
        rootBuilt := false }

end Grammar

end QuadLang
