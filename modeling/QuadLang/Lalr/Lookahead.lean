/-
Look-ahead sets.

The look-aheads of a completed item in a state are the terminals that can follow
its rule there.  They come from two passes of `digraph` over the nonterminal
transitions of the automaton: first along "reads" (what can come next when
nonterminals are empty), then along "includes" (what can follow the enclosing
rule when the rest of it is empty), and are brought to the items by "lookback".
-/
import QuadLang.Lalr.Automaton
import QuadLang.Lalr.Digraph

namespace QuadLang.Lalr

/-- A transition: a state and a nonterminal that leads on from it. -/
abbrev Transition := Nat × Nat

/-- Append what is not yet in the list. -/
def addNew {α : Type} [BEq α] (xs : List α) (x : α) : List α :=
  if xs.contains x then xs else xs ++ [x]

namespace Rules

def nullableStep (g : Rules) (nullable : List Nat) : List Nat :=
  (g.rules.toList.drop 1).foldl (fun acc r =>
    if r.right.all acc.contains then addNew acc r.left else acc) nullable

def nullableAfter (g : Rules) : Nat → List Nat → List Nat
  | 0, nullable => nullable
  | n + 1, nullable =>
    let next := g.nullableStep nullable
    if next.length == nullable.length then nullable else g.nullableAfter n next

/-- The symbols that derive the empty text. -/
def nullable (g : Rules) : List Nat := g.nullableAfter (g.rules.size + 1) []

end Rules

/-- Add the symbol after the dot of an item if it is of a kind. -/
def addNext (kind : Nat → Bool) (acc : List Nat) (i : Item) : List Nat :=
  match i.next? with
  | some s => if kind s then addNew acc s else acc
  | none => acc

def transitions (g : Rules) (states : Array State) : List Transition :=
  states.toList.zipIdx.flatMap fun x =>
    (x.1.items.foldl (addNext g.isNonterminal) []).map fun s => (x.2, s)

def itemsAfter (states : Array State) (t : Transition) : List Item :=
  ((move? states t.1 t.2).map (itemsOf states)).getD []

/-- The terminals that can be read right after a transition. -/
def directReads (g : Rules) (states : Array State) (t : Transition) : List Nat :=
  let terms := (itemsAfter states t).foldl (addNext g.isTerminal) []
  if t.1 == 0 && t.2 == g.start then terms ++ [g.endMark] else terms

/-- The transitions over nullable symbols right after a transition. -/
def reads (nullable : List Nat) (states : Array State) (t : Transition) : List Transition :=
  match move? states t.1 t.2 with
  | none => []
  | some j => (itemsOf states j).filterMap fun i =>
    i.next?.bind fun s => if nullable.contains s then some (j, s) else none

/-- Follow the rest of an item from a state: where it ends, and the transitions
on the way after which only empty symbols remain. -/
def runForward (g : Rules) (nullable : List Nat) (isTransition : Transition → Bool)
    (states : Array State) : List Nat → Nat → Nat × List Transition
  | [], j => (j, [])
  | s :: rest, j =>
    let here := if isTransition (j, s) &&
        rest.all (fun t => !g.isTerminal t && nullable.contains t) then [(j, s)] else []
    let (last, more) := runForward g nullable isTransition states rest
      ((move? states j s).getD 0)
    (last, here ++ more)

/-- Whether item `r`, read from its beginning, goes over the symbols after the
first place of item `p`. -/
def matchesFrom (g : Rules) (p r : Item) : Bool :=
  g.left r.rule == g.left p.rule &&
  (g.right r.rule).length == (g.right p.rule).length &&
  ((r.dotted g).take r.dot == ((p.dotted g).drop 1).take r.dot)

/-- The relations that a transition takes part in: the items that look back to
it, and the transitions that include it. -/
def lookback (g : Rules) (nullable : List Nat) (isTransition : Transition → Bool)
    (states : Array State) (t : Transition) : List (Nat × Item) × List Transition :=
  let own := (itemsOf states t.1).filter fun p => g.left p.rule == t.2
  let runs := own.map fun p => (p, runForward g nullable isTransition states p.rest t.1)
  (runs.flatMap fun x => ((itemsOf states x.2.1).filter (matchesFrom g x.1)).map fun r => (x.2.1, r),
    runs.flatMap fun x => x.2.2)

/-- The transitions of each state, for quick membership. -/
def transitionRows (count : Nat) (ts : List Transition) : Array (List Nat) :=
  ts.foldl (fun rows t => rows.modify t.1 (t.2 :: ·)) (Array.replicate count [])

/-- A transition with the relations that it takes part in. -/
structure Looking where
  transition : Transition
  back : List (Nat × Item)
  inside : List Transition

def lookings (g : Rules) (states : Array State) : List Looking :=
  let nullable := g.nullable
  let ts := transitions g states
  let rows := transitionRows states.size ts
  let isTransition := fun (t : Transition) => (rows.getD t.1 []).contains t.2
  ts.map fun t =>
    let found := lookback g nullable isTransition states t
    { transition := t, back := found.1, inside := found.2 }

def inclusions (ls : List Looking) : List (Transition × Transition) :=
  ls.flatMap fun l => l.inside.map fun i => (i, l.transition)

def includedIn (includes : List (Transition × Transition)) (t : Transition) : List Transition :=
  includes.filterMap fun e => if e.1 == t then some e.2 else none

def followSets (g : Rules) (states : Array State) (ls : List Looking) :
    Except Transition (Sets Transition Nat) := do
  let ts := transitions g states
  let readSets ← digraph ts (reads g.nullable states) (Sets.ofFunction ts (directReads g states))
  let followSets ← digraph ts (includedIn (inclusions ls)) readSets.1
  return followSets.1

def addAhead (fs : List Nat) (item : Item) (row : List (Item × List Nat)) : List (Item × List Nat) :=
  if row.any (·.1 == item) then
    row.map fun e => if e.1 == item then (item, fs.foldl addNew e.2) else e
  else row ++ [(item, fs)]

def addBack (follow : Sets Transition Nat) (table : Array (List (Item × List Nat))) (l : Looking) :
    Array (List (Item × List Nat)) :=
  let fs := follow.get l.transition
  l.back.foldl (fun table x => table.modify x.1 (addAhead fs x.2)) table

def lookaheads (g : Rules) (states : Array State) : Array (List (Item × List Nat)) :=
  let ls := lookings g states
  match followSets g states ls with
  | .error _ => #[]
  | .ok follow => ls.foldl (addBack follow) (Array.replicate states.size [])

end QuadLang.Lalr
