/-
The automaton of item sets.

An item is a rule with a dot in its right side.  A state is a closed list of
items; `Automaton.build` starts from the start rule and follows every symbol,
numbering the states in the order in which they are found.  Two states are the
same when their kernels, the items before closing, are the same lists.

Design notes: the order of items, symbols and states is part of the result,
since it fixes the numbering of states and the order of look-aheads.  A rule
joins the closure of a state unless it carries the number of that state as its
mark; after a build every rule is marked with the last state that it joined, so
a second build over the same grammar can meet old marks.
-/
import QuadLang.Lalr.Rules

namespace QuadLang.Lalr

/-- A rule with a dot; `rest` is what stands after the dot. -/
structure Item where
  rule : Nat
  dot : Nat
  rest : List Nat
deriving Repr, DecidableEq

namespace Item

def initial (g : Rules) (rule : Nat) : Item := { rule, dot := 0, rest := g.right rule }

def next? (i : Item) : Option Nat := i.rest.head?

def advance? (i : Item) (s : Nat) : Option Item :=
  match i.rest with
  | t :: rest => if t == s then some { i with dot := i.dot + 1, rest } else none
  | [] => none

/-- The right side with the dot in it. -/
def dotted (g : Rules) (i : Item) : List Nat :=
  (g.right i.rule).take i.dot ++ g.dot :: (g.right i.rule).drop i.dot

def all (g : Rules) : List Item :=
  (List.range g.rules.size).flatMap fun rule =>
    (List.range ((g.right rule).length + 1)).map fun dot =>
      { rule, dot, rest := (g.right rule).drop dot }

def text (g : Rules) (i : Item) : String :=
  g.name (g.left i.rule) ++ " -> " ++ Text.join " " ((i.dotted g).map g.name)

end Item

/-- Close a queue of items: after each item come the rules of the symbol after
its dot, unless they have joined before.  The number bounds the items. -/
def expand (g : Rules) : Nat → List Nat → List Item → List Item
  | 0, _, queue => queue
  | _ + 1, _, [] => []
  | n + 1, joined, i :: queue =>
    let new := match i.next? with
      | some s => (g.rulesOf s).filter fun r => !joined.contains r
      | none => []
    i :: expand g n (new ++ joined) (queue ++ new.map (Item.initial g))

/-- The closure of a kernel, given the rules that are kept out. -/
def closure (g : Rules) (kept : List Nat) (kernel : List Item) : List Item :=
  expand g (kernel.length + g.rules.size + 1) kept kernel

/-- A closed list of items, and the states that its symbols lead to. -/
structure State where
  kernel : List Item
  items : List Item
  moves : List (Nat × Nat)
deriving Repr

/-- The item sets found so far and the marks of the rules. -/
structure Builder where
  states : Array State
  marks : List Nat

namespace Builder

def add (g : Rules) (b : Builder) (kernel : List Item) : Builder :=
  let mark := b.states.size + 1
  let kept := (List.range b.marks.length).filter fun r => b.marks.getD r 0 == mark
  let items := closure g kept kernel
  let joined := (items.drop kernel.length).map (·.rule)
  { states := b.states.push { kernel, items, moves := [] }
    marks := (List.range g.rules.size).map fun r =>
      if joined.contains r then mark else b.marks.getD r 0 }

/-- The symbols that the items of a state mention, in order. -/
def symbols (g : Rules) (items : List Item) : List Nat :=
  (items.flatMap fun i => g.right i.rule).foldl
    (fun acc s => if acc.contains s then acc else acc ++ [s]) []

def follow (g : Rules) (items : List Item) (b : Builder × List (Nat × Nat)) (s : Nat) :
    Builder × List (Nat × Nat) :=
  let kernel := items.filterMap (·.advance? s)
  if kernel.isEmpty then b
  else match b.1.states.findIdx? (·.kernel == kernel) with
    | some target => (b.1, b.2 ++ [(s, target)])
    | none => (b.1.add g kernel, b.2 ++ [(s, b.1.states.size)])

/-- Follow all symbols from state `i` on. -/
def grow (g : Rules) : Nat → Nat → Builder → Builder
  | 0, _, b => b
  | n + 1, i, b =>
    match b.states[i]? with
    | none => b
    | some state =>
      let (b, moves) := (symbols g state.items).foldl (follow g state.items) (b, [])
      grow g n (i + 1) { b with states := b.states.setIfInBounds i { state with moves } }

end Builder

/-- At least as many states as an automaton can have: their kernels are different
lists of different items. -/
def stateLimit (g : Rules) : Nat := Nat.pow ((Item.all g).length + 1) (Item.all g).length

/-- The item sets of a grammar, given the marks of its rules; also the marks
after it. -/
def build (g : Rules) (marks : List Nat) : Builder :=
  let kernel := [Item.initial g 0]
  Builder.grow g (stateLimit g) 0 (Builder.add g { states := #[], marks } kernel)

def move? (states : Array State) (state symbol : Nat) : Option Nat :=
  states[state]?.bind fun s => s.moves.lookup symbol

def itemsOf (states : Array State) (state : Nat) : List Item :=
  (states[state]?.map (·.items)).getD []

end QuadLang.Lalr
