/-
Parsing tables.

For every state a row says what to do on each terminal and where to go after
each nonterminal.  Conflicts are settled by precedence: of a shift and a
reduction the stronger wins, equal strength goes by associativity, and without
precedence the shift wins; of two reductions the rule written first wins.  Every
decision taken without precedence is kept as a conflict.

`Tables.build` is total: when a reduction competes with acceptance there is no
way to settle it, and the tables stop at that state.
-/
import QuadLang.Lalr.Lookahead

namespace QuadLang.Lalr

inductive Action where
  | shift (state : Nat)
  | reduce (rule : Nat)
  | accept
  /-- An operator that must not be repeated: an error. -/
  | refuse
deriving Repr, DecidableEq

/-- The number by which an action is known: the target of a shift, minus the rule
of a reduction, zero for acceptance. -/
def Action.number? : Action → Option Int
  | .shift n => some n
  | .reduce r => some (-(r : Int))
  | .accept => some 0
  | .refuse => none

inductive Winner where
  | shift
  | reduce
deriving Repr, DecidableEq

def Winner.name : Winner → String
  | .shift => "shift"
  | .reduce => "reduce"

/-- A conflict that was settled without precedence. -/
inductive Conflict where
  | shiftReduce (symbol : Nat) (winner : Winner)
  | reduceReduce (symbol : Nat) (chosen rejected : Nat) (item : Item)
deriving Repr, DecidableEq

structure Offer where
  symbol : Nat
  item : Item
  action : Action
deriving Repr, DecidableEq

structure Row where
  /-- The chosen actions, each with the item that asked for it. -/
  chosen : List (Nat × Action × Item)
  offers : List Offer
  conflicts : List Conflict
  /-- Changes to the number of times that rules are reduced. -/
  reduced : List (Nat × Int)
  moves : List (Nat × Nat)
deriving Repr

namespace Row

def empty : Row := { chosen := [], offers := [], conflicts := [], reduced := [], moves := [] }

def action? (row : Row) (s : Nat) : Option Action := (row.chosen.lookup s).map (·.1)

def choose (row : Row) (s : Nat) (a : Action) (item : Item) : Row :=
  if row.chosen.any (·.1 == s) then
    { row with chosen := row.chosen.map fun e => if e.1 == s then (s, a, item) else e }
  else { row with chosen := row.chosen ++ [(s, a, item)] }

/-- Forbid a symbol; the item that asked last stays. -/
def forbid (row : Row) (s : Nat) : Row :=
  { row with chosen := row.chosen.map fun e => if e.1 == s then (s, .refuse, e.2.2) else e }

def note (row : Row) (keep : Bool) (c : Conflict) : Row :=
  if keep then { row with conflicts := row.conflicts ++ [c] } else row

def count (row : Row) (rule : Nat) (change : Int) : Row :=
  { row with reduced := row.reduced ++ [(rule, change)] }

/-- Offer a reduction of a completed item on a look-ahead.  There is no answer
when it competes with acceptance. -/
def offerReduce (g : Rules) (item : Item) (row : Row) (s : Nat) : Option Row :=
  let row : Row := { row with offers := row.offers ++ [Offer.mk s item (.reduce item.rule)] }
  let sp := g.tokenPrecedence s
  let rp := g.rulePrecedence item.rule
  match row.action? s with
  | none | some .refuse => some ((row.choose s (.reduce item.rule) item).count item.rule 1)
  | some (.shift _) =>
    if sp.level < rp.level || (sp.level == rp.level && rp.assoc == .left) then
      some (((row.choose s (.reduce item.rule) item).note (sp.level == 0 && rp.level == 0)
        (.shiftReduce s .reduce)).count item.rule 1)
    else if sp.level == rp.level && rp.assoc == .nonassoc then some (row.forbid s)
    else some (row.note (rp.level == 0) (.shiftReduce s .shift))
  | some (.reduce old) =>
    if g.line old > g.line item.rule then
      some ((((row.choose s (.reduce item.rule) item).count item.rule 1).count old (-1)).note true
        (.reduceReduce s item.rule old item))
    else
      let owner := ((row.chosen.lookup s).map (·.2)).getD item
      some (row.note true (.reduceReduce s old item.rule owner))
  | some .accept => none

def offerShift (g : Rules) (item : Item) (row : Row) (s target : Nat) : Option Row :=
  let row : Row := { row with offers := row.offers ++ [Offer.mk s item (.shift target)] }
  let sp := g.tokenPrecedence s
  match row.chosen.lookup s with
  | none | some (.refuse, _) => some (row.choose s (.shift target) item)
  | some (.shift _, _) => some row
  | some (.reduce _, owner) =>
    let rp := g.rulePrecedence owner.rule
    if sp.level > rp.level || (sp.level == rp.level && rp.assoc == .right) then
      some (((row.count owner.rule (-1)).choose s (.shift target) item).note (rp.level == 0)
        (.shiftReduce s .shift))
    else if sp.level == rp.level && rp.assoc == .nonassoc then some (row.forbid s)
    else some (row.note (sp.level == 0 && rp.level == 0) (.shiftReduce s .reduce))
  | some (.accept, _) => none

/-- Fold offers into a row; when one cannot be settled, the row so far. -/
def offerAll {α : Type} (offer : Row → α → Option Row) : List α → Row → Row × Bool
  | [], row => (row, true)
  | x :: rest, row =>
    match offer row x with
    | some row => offerAll offer rest row
    | none => (row, false)

def addItem (g : Rules) (moves : List (Nat × Nat)) (ahead : Item → List Nat) (row : Row)
    (item : Item) : Row × Bool :=
  match item.next? with
  | none =>
    if item.rule == 0 then (row.choose g.endMark .accept item, true)
    else offerAll (offerReduce g item) (ahead item) row
  | some s =>
    if g.isTerminal s then
      match moves.lookup s with
      | some target => offerAll (fun row _ => row.offerShift g item s target) [()] row
      | none => (row, true)
    else (row, true)

def addItems (g : Rules) (moves : List (Nat × Nat)) (ahead : Item → List Nat) :
    List Item → Row → Row × Bool
  | [], row => (row, true)
  | i :: rest, row =>
    match row.addItem g moves ahead i with
    | (row, true) => addItems g moves ahead rest row
    | stopped => stopped

/-- The decisions for one state, and whether all could be taken. -/
def build (g : Rules) (state : State) (ahead : List (Item × List Nat)) : Row × Bool :=
  let (row, done) := Row.empty.addItems g state.moves (fun i => (ahead.lookup i).getD []) state.items
  ({ row with moves := state.moves.filter fun m => g.isNonterminal m.1 }, done)

/-- The numbers of the chosen actions, in the order of the names of their symbols. -/
def namedActions (g : Rules) (row : Row) : List (String × Option Int) :=
  (row.chosen.map fun (s, a, _) => (g.name s, a.number?)).mergeSort fun a b => decide (a.1 ≤ b.1)

def namedMoves (g : Rules) (row : Row) : List (String × Nat) :=
  (row.moves.map fun (s, n) => (g.name s, n)).mergeSort fun a b => decide (a.1 ≤ b.1)

end Row

structure Tables where
  rules : Rules
  states : Array State
  rows : Array Row
  /-- The row of a state whose conflict could not be settled; there are no rows
  after it. -/
  stopped : Option Row

namespace Tables

/-- Rows until one cannot be finished. -/
def rowsOf (g : Rules) : List (State × List (Item × List Nat)) → Array Row →
    Array Row × Option Row
  | [], rows => (rows, none)
  | (state, ahead) :: rest, rows =>
    match Row.build g state ahead with
    | (row, true) => rowsOf g rest (rows.push row)
    | (row, false) => (rows, some row)

def ofStates (g : Rules) (states : Array State) : Tables :=
  let (rows, stopped) := rowsOf g (states.toList.zip (lookaheads g states).toList) #[]
  { rules := g, states, rows, stopped }

def build (g : Rules) : Tables := ofStates g (Lalr.build g []).states

def action? (t : Tables) (state symbol : Nat) : Option Action :=
  t.rows[state]?.bind (·.action? symbol)

/-- Where to go from a state after a nonterminal. -/
def goto? (t : Tables) (state symbol : Nat) : Option Nat :=
  t.rows[state]?.bind fun row => row.moves.lookup symbol

/-- The only action of a state, if it is a reduction. -/
def soleReduction? (row : Row) : Option Nat :=
  match row.chosen with
  | [(_, .reduce rule, _)] => some rule
  | _ => none

/-- The rule that a state always reduces, whatever comes. -/
def defaulted? (t : Tables) (state : Nat) : Option Nat := t.rows[state]?.bind soleReduction?

/-- Whether the only action of some state is a refusal. -/
def hasSoleRefusal (t : Tables) : Bool :=
  t.rows.any fun row => match row.chosen with
    | [(_, .refuse, _)] => true
    | _ => false

/-- The shift conflicts of the tables: state, symbol and winner. -/
def shiftConflicts (t : Tables) : List (Nat × Nat × Winner) :=
  t.rows.toList.zipIdx.flatMap fun (row, n) => row.conflicts.filterMap fun
    | .shiftReduce s w => some (n, s, w)
    | .reduceReduce .. => none

/-- The conflicts between reductions: state, chosen and rejected rule. -/
def reduceConflicts (t : Tables) : List (Nat × Nat × Nat) :=
  t.rows.toList.zipIdx.flatMap fun (row, n) => row.conflicts.filterMap fun
    | .shiftReduce .. => none
    | .reduceReduce _ chosen rejected _ => some (n, chosen, rejected)

/-- How often a rule was chosen for reduction, less what was taken back. -/
def reducedCount (t : Tables) (rule : Nat) : Int :=
  t.rows.foldl (fun n row =>
    row.reduced.foldl (fun n e => if e.1 == rule then n + e.2 else n) n) 0

end Tables

end QuadLang.Lalr
