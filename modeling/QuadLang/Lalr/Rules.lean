/-
Grammars in coded form.

Table generation works on numbers: every symbol is its index in a list of names,
and rule 0 is the start rule.  `Rules.ofGrammar?` codes a grammar that has a
start rule.
-/
import QuadLang.Grammar.Basic

namespace QuadLang.Lalr

structure Rule where
  left : Nat
  right : List Nat
  precedence : Precedence
  line : Int
deriving Repr, DecidableEq

structure Rules where
  names : Array String
  /-- The rules by number; rule 0 is the start rule. -/
  rules : Array Rule
  terminals : List Nat
  nonterminals : List Nat
  /-- The declared precedences of terminals. -/
  precedence : List (Nat × Precedence)
  /-- The code of the end of the input. -/
  endMark : Nat
  /-- The code of the dot that marks the place in an item. -/
  dot : Nat
deriving Repr

namespace Rules

def name (g : Rules) (s : Nat) : String := g.names.getD s ""

def isTerminal (g : Rules) (s : Nat) : Bool := g.terminals.contains s

def isNonterminal (g : Rules) (s : Nat) : Bool := g.nonterminals.contains s

def left (g : Rules) (rule : Nat) : Nat := (g.rules[rule]?.map (·.left)).getD 0

def right (g : Rules) (rule : Nat) : List Nat := (g.rules[rule]?.map (·.right)).getD []

/-- The start symbol: what the start rule derives. -/
def start (g : Rules) : Nat := (g.right 0).headD 0

/-- The numbers of the rules of a symbol, the start rule apart. -/
def rulesOf (g : Rules) (s : Nat) : List Nat :=
  (List.range g.rules.size).filter fun r => r != 0 && g.left r == s

def rulePrecedence (g : Rules) (rule : Nat) : Precedence :=
  (g.rules[rule]?.map (·.precedence)).getD .default

def tokenPrecedence (g : Rules) (s : Nat) : Precedence := (g.precedence.lookup s).getD .default

def line (g : Rules) (rule : Nat) : Int := (g.rules[rule]?.map (·.line)).getD 0

def code (names : List String) (s : String) : Nat := names.idxOf s

def ofGrammar? (g : Grammar) : Option Rules :=
  g.root.map fun root =>
    let names := (g.terminals.map (·.1) ++ g.nonterminals.map (·.1) ++
      [endName, ".", startName]).eraseDups
    let rule := fun (p : Production) =>
      { left := code names p.name, right := p.symbols.map (code names),
        precedence := p.precedence, line := p.line : Rule }
    { names := names.toArray
      rules := ((root :: g.rules).map rule).toArray
      terminals := g.terminals.map fun (s, _) => code names s
      nonterminals := g.nonterminals.map fun (s, _) => code names s
      precedence := g.precedence.map fun (s, p) => (code names s, p)
      endMark := code names endName
      dot := code names "." }

end Rules

end QuadLang.Lalr
