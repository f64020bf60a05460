/-
The report on parsing tables.

For every state: its items, the conflicts settled in it, the actions taken, the
actions passed over, and the states after its nonterminals.
-/
import QuadLang.Lalr.Tables

namespace QuadLang.Lalr

def Offer.text (g : Rules) (o : Offer) : String :=
  match o.action with
  | .reduce r => "reduce using rule " ++ toString r ++ " (" ++ o.item.text g ++ ")"
  | .shift n => "shift and go to state " ++ toString n
  | .accept | .refuse => ""

def Conflict.line (g : Rules) : Conflict → String
  | .shiftReduce s w =>
    "  ! shift/reduce conflict for " ++ g.name s ++ " resolved as " ++ w.name
  | .reduceReduce s _ _ item =>
    "  ! reduce/reduce conflict for " ++ g.name s ++ " resolved using rule " ++
      toString item.rule ++ " (" ++ item.text g ++ ")"

/-- Whether an offer is the one that was chosen on its symbol. -/
def Row.isChosen (row : Row) (o : Offer) : Option Bool :=
  (row.chosen.lookup o.symbol).map fun (_, item) => item == o.item

def headLines (g : Rules) (number : Nat) (state : State) : List String :=
  ["", "state " ++ toString number, ""] ++
  (state.items.map fun i => "    (" ++ toString i.rule ++ ") " ++ i.text g) ++ [""]

def actionLines (g : Rules) (row : Row) : List String :=
  let taken := row.offers.filter fun o => row.isChosen o == some true
  let passed := row.offers.filter fun o => row.isChosen o == some false
  let seen := taken.map fun o => (o.symbol, o.text g)
  let (_, passedLines) := passed.foldl (fun (seen, lines) o =>
    let key := (o.symbol, o.text g)
    if seen.contains key then (seen, lines)
    else (key :: seen,
      lines ++ ["  ! " ++ Text.padRight 15 (g.name o.symbol) ++ " [ " ++ o.text g ++ " ]"]))
    (seen, [])
  (taken.map fun o => "    " ++ Text.padRight 15 (g.name o.symbol) ++ " " ++ o.text g) ++ [""] ++
  passedLines ++ (if passedLines.isEmpty then [] else [""])

def moveLines (g : Rules) (row : Row) : List String :=
  row.moves.map fun (s, n) =>
    "    " ++ Text.padRight 30 (g.name s) ++ " shift and go to state " ++ toString n

def Row.lines (g : Rules) (number : Nat) (state : State) (row : Row) : List String :=
  headLines g number state ++ row.conflicts.map (Conflict.line g) ++ actionLines g row ++
  moveLines g row

namespace Tables

def stateLines (t : Tables) (number : Nat) : List String :=
  match t.states[number]?, t.rows[number]? with
  | some state, some row => row.lines t.rules number state
  | _, _ => []

/-- The report of all states; of the state where the tables stopped, the part
before the conflict. -/
def lines (t : Tables) : List String :=
  (List.range t.rows.size).flatMap t.stateLines ++
  match t.stopped, t.states[t.rows.size]? with
  | some row, some state =>
    headLines t.rules t.rows.size state ++ row.conflicts.map (Conflict.line t.rules)
  | _, _ => []

end Tables

end QuadLang.Lalr
