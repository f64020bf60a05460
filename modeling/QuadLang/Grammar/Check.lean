/-
What can be wrong with a finished grammar.

Symbols that no rule or terminal defines, symbols that cannot be reached from
the start, nonterminals that derive no text, and terminals, rules and
precedences that nothing uses.  All answers keep the order in which the grammar
lists its symbols.
-/
import QuadLang.Grammar.Basic

namespace QuadLang.Grammar

def reachStep (g : Grammar) (reached : List String) : List String :=
  g.rules.foldl (fun reached p =>
    if reached.contains p.name then
      p.symbols.foldl (fun r s => if r.contains s then r else r ++ [s]) reached
    else reached) reached

def reach (g : Grammar) : Nat → List String → List String
  | 0, reached => reached
  | n + 1, reached =>
    let next := g.reachStep reached
    if next.length == reached.length then reached else g.reach n next

/-- The nonterminals that cannot be reached from the start rule; none when there
is no start rule. -/
def unreachable? (g : Grammar) : Option (List String) :=
  g.root.map fun root =>
    let reached := g.reach (g.terminals.length + g.nonterminals.length + 1) (root.symbols.take 1)
    (g.nonterminals.map (·.1)).filter fun s => !reached.contains s

def endingStep (g : Grammar) (ending : List String) : List String :=
  g.rules.foldl (fun ending p =>
    if !ending.contains p.name && p.symbols.all ending.contains then ending ++ [p.name]
    else ending) ending

def endingAfter (g : Grammar) : Nat → List String → List String
  | 0, ending => ending
  | n + 1, ending =>
    let next := g.endingStep ending
    if next.length == ending.length then ending else g.endingAfter n next

/-- The symbols that are defined and derive no text of terminals. -/
def endless (g : Grammar) : List String :=
  let base := g.terminals.map (·.1) ++ [endName]
  let all := base ++ ((g.nonterminals.map (·.1)).filter fun s => !base.contains s)
  let ending := g.endingAfter (g.nonterminals.length + 1)
    (base.filter fun s => !g.isNonterminal s)
  all.filter fun s => !ending.contains s && (g.isDefined s || g.isTerminal s)

/-- The symbols that are neither a terminal nor the left side of a rule, each
with the rule that uses it. -/
def undefined (g : Grammar) : List (String × Production) :=
  (g.productions.filterMap id).flatMap fun p =>
    (p.symbols.filter fun s => !g.isDefined s && !g.isTerminal s).map fun s => (s, p)

/-- The terminals that no rule uses. -/
def unusedTerminals (g : Grammar) : List String :=
  (g.terminals.filter fun (s, uses) => s != errorName && uses.isEmpty).map (·.1)

/-- The first rule of each nonterminal that no rule uses. -/
def unusedRules (g : Grammar) : List Production :=
  g.nonterminals.filterMap fun (s, uses) =>
    if uses.isEmpty then (g.productionsOf s).head? else none

/-- The precedences of names that are no terminals and that no rule refers to. -/
def unusedPrecedence (g : Grammar) : List (String × Assoc) :=
  (g.precedence.filter fun (s, _) => !g.isTerminal s && !g.usedPrecedence.contains s).map
    fun (s, p) => (s, p.assoc)

end QuadLang.Grammar
