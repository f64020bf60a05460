/-
First and follow sets.

`First(X)` lists the terminals that can begin a text derived from `X`, with
`<empty>` when the empty text is among them; `Follow(X)` lists the terminals
that can come after `X`.  Both grow by rounds over the productions until nothing
changes; new members are appended, so the lists show the order of discovery.

Design notes: a symbol without rules stops the computation of first sets.  What
has been found so far stays with the grammar and counts as the answer later on.
-/
import QuadLang.Grammar.Basic

namespace QuadLang

/-- The member of a first set that stands for the empty text. -/
def emptyName : String := "<empty>"

inductive SetFault where
  /-- A symbol has no entry. -/
  | missing (symbol : String)
  /-- There is no production from which to take the start symbol. -/
  | noProductions
deriving Repr, DecidableEq

def SetFault.message : SetFault → String
  | .missing s => Text.quote s
  | .noProductions => "list index out of range"

def SetFault.kind : SetFault → FaultKind
  | .missing _ => .key
  | .noProductions => .index

namespace Grammar

def firstOf (first : Table (List String)) : List String → List String →
    Except SetFault (List String)
  | [], acc => .ok (acc ++ [emptyName])
  | x :: rest, acc =>
    match first.get? x with
    | none => .error (.missing x)
    | some fs =>
      let acc := (fs.filter (· != emptyName)).foldl
        (fun acc f => if acc.contains f then acc else acc ++ [f]) acc
      if fs.contains emptyName then firstOf first rest acc else .ok acc

/-- Append the members that are new; also say whether there were any. -/
def extend (old : List String) (new : List String) : List String :=
  new.foldl (fun acc f => if acc.contains f then acc else acc ++ [f]) old

def firstRules (first : Table (List String)) (name : String) :
    List Production → Table (List String) × Option SetFault
  | [] => (first, none)
  | p :: rest =>
    match firstOf first p.symbols [] with
    | .error e => (first, some e)
    | .ok fs => firstRules (first.put name (extend ((first.get? name).getD []) fs)) name rest

def firstRound (g : Grammar) (first : Table (List String)) :
    List String → Table (List String) × Option SetFault
  | [] => (first, none)
  | n :: rest =>
    if !g.isDefined n then (first, some (.missing n))
    else
      match firstRules first n (g.productionsOf n) with
      | (first, none) => g.firstRound first rest
      | stopped => stopped

/-- Rounds until nothing changes. -/
def firstRounds (g : Grammar) : Nat → Table (List String) → Table (List String) × Option SetFault
  | 0, first => (first, none)
  | n + 1, first =>
    match g.firstRound first (g.nonterminals.map (·.1)) with
    | (next, none) => if next == first then (first, none) else g.firstRounds n next
    | stopped => stopped

/-- More rounds than first or follow sets can need: each adds a member. -/
def roundLimit (g : Grammar) : Nat :=
  (g.nonterminals.length + 1) * (g.terminals.length + g.nonterminals.length + 3) + 1

def computeFirst (g : Grammar) : Grammar × Except SetFault (Table (List String)) :=
  if !g.first.isEmpty then (g, .ok g.first)
  else
    let start : Table (List String) := g.terminals.map fun (t, _) => (t, [t])
    let start := start.put endName [endName]
    let start := g.nonterminals.foldl (fun t (n, _) => t.put n []) start
    let (first, fault) := g.firstRounds g.roundLimit start
    ({ g with first }, match fault with | none => .ok first | some e => .error e)

/-- What one place in a rule adds to the follow sets: the symbol there, the first
set of what comes after it, and the left side when all of that can be empty. -/
def followAt (first follow : Table (List String)) (name symbol : String) (rest : List String) :
    Except SetFault (Table (List String)) := do
  let fs ← firstOf first rest []
  let own := extend ((follow.get? symbol).getD []) (fs.filter (· != emptyName))
  let follow := follow.put symbol own
  if fs.contains emptyName || rest.isEmpty then
    let above := (follow.get? name).getD []
    return follow.put symbol (extend own above)
  else return follow

def followRule (g : Grammar) (name : String) :
    List String → Table (List String) → Table (List String) × Option SetFault
  | [], follow => (follow, none)
  | s :: rest, follow =>
    if g.isNonterminal s then
      match followAt g.first follow name s rest with
      | .ok follow => g.followRule name rest follow
      | .error e => (follow, some e)
    else g.followRule name rest follow

def followRound (g : Grammar) :
    List Production → Table (List String) → Table (List String) × Option SetFault
  | [], follow => (follow, none)
  | p :: rest, follow =>
    match g.followRule p.name p.symbols follow with
    | (follow, none) => g.followRound rest follow
    | stopped => stopped

/-- Rounds until nothing changes. -/
def followRounds (g : Grammar) : Nat → Table (List String) → Table (List String) × Option SetFault
  | 0, follow => (follow, none)
  | n + 1, follow =>
    match g.followRound g.rules follow with
    | (next, none) => if next == follow then (follow, none) else g.followRounds n next
    | stopped => stopped

def computeFollow (g : Grammar) : Grammar × Except SetFault (Table (List String)) :=
  if !g.follow.isEmpty then (g, .ok g.follow)
  else
    match if g.first.isEmpty then g.computeFirst else (g, .ok g.first) with
    | (g, .error e) => (g, .error e)
    | (g, .ok _) =>
      let start : Table (List String) := g.nonterminals.map fun (n, _) => (n, [])
      match g.rules.head? with
      | none => ({ g with follow := start }, .error .noProductions)
      | some p =>
        let (follow, fault) := g.followRounds g.roundLimit (start.put p.name [endName])
        ({ g with follow }, match fault with | none => .ok follow | some e => .error e)

end Grammar

end QuadLang
