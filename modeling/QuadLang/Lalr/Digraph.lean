/-
Sets along a relation.

Given a relation `R` on nodes and a set for every node, `digraph` computes the
least sets with `F x = F' x ∪ ⋃ { F y | x R y }` by one depth-first walk.  Nodes
on a common cycle get the same set.

Design notes: sets are lists in order of discovery and live in numbered cells.
Nodes on a common cycle share one cell, so a member that a later walk adds to
the set of one of them is added to the sets of all.
-/
namespace QuadLang.Lalr

/-- How far a node has been walked. -/
inductive Mark where
  | unseen
  /-- On the walk's stack; the number is the least depth that it can reach. -/
  | opened (depth : Nat)
  | closed
deriving Repr, DecidableEq

/-- The cell of every node and the contents of the cells. -/
structure Sets (α β : Type) where
  cellOf : List (α × Nat)
  cells : Array (List β)

namespace Sets

variable {α β : Type} [BEq α]

def ofFunction (nodes : List α) (f : α → List β) : Sets α β where
  cellOf := nodes.zipIdx
  cells := (nodes.map f).toArray

def get (s : Sets α β) (x : α) : List β :=
  ((s.cellOf.lookup x).bind fun c => s.cells[c]?).getD []

end Sets

/-- A walk in progress: the marks, the stack, the nodes in the order in which the
walk met them, and the sets. -/
structure Walk (α β : Type) where
  marks : List (α × Mark)
  stack : List α
  met : List α
  sets : Sets α β

namespace Walk

variable {α β : Type} [BEq α] [BEq β]

def mark? (w : Walk α β) (x : α) : Option Mark := w.marks.lookup x

def setMark (w : Walk α β) (x : α) (m : Mark) : Walk α β :=
  { w with marks := w.marks.map fun e => if e.1 == x then (e.1, m) else e }

/-- The least depth that a node on the stack is known to reach. -/
def lower (w : Walk α β) (x y : α) : Walk α β :=
  match w.mark? x, w.mark? y with
  | some (.opened d), some (.opened e) => w.setMark x (.opened (min d e))
  | _, _ => w

def absorb (w : Walk α β) (x y : α) : Walk α β :=
  match w.sets.cellOf.lookup x with
  | none => w
  | some c =>
    let own := w.sets.get x
    let all := (w.sets.get y).foldl (fun acc a => if acc.contains a then acc else acc ++ [a]) own
    { w with sets := { w.sets with cells := w.sets.cells.setIfInBounds c all } }

/-- Close the nodes on the stack down to `x`; they get the cell of `x`. -/
def close (w : Walk α β) (x : α) : Walk α β :=
  let cycle := w.stack.takeWhile (fun y => !(y == x)) ++ [x]
  let cell := (w.sets.cellOf.lookup x).getD 0
  { w with
    stack := w.stack.drop cycle.length
    marks := w.marks.map fun e => if cycle.contains e.1 then (e.1, .closed) else e
    sets := { w.sets with
      cellOf := w.sets.cellOf.map fun e => if cycle.contains e.1 then (e.1, cell) else e } }

/-- Go from `x` to the related node `y`, walking on from it with `go` when it is
new.  The error is a node that is not in the graph. -/
def meet (go : α → Walk α β → Except α (Walk α β)) (x : α) (w : Walk α β) (y : α) :
    Except α (Walk α β) := do
  let w ← match w.mark? y with
    | none => .error y
    | some .unseen => go y w
    | some _ => .ok w
  return (w.lower x y).absorb x y

def enter (w : Walk α β) (x : α) : Walk α β :=
  { w.setMark x (.opened (w.stack.length + 1)) with stack := x :: w.stack, met := w.met ++ [x] }

/-- Walk on from `x`.  The number bounds the depth. -/
def visit (rel : α → List α) : Nat → α → Walk α β → Except α (Walk α β)
  | 0, _, w => .ok w
  | n + 1, x, w => do
    let depth := w.stack.length + 1
    let w ← (rel x).foldlM (meet (visit rel n) x) (w.enter x)
    if w.mark? x == some (.opened depth) then return w.close x else return w

/-- Walk on from `x` if it is new. -/
def begin (rel : α → List α) (n : Nat) (w : Walk α β) (x : α) : Except α (Walk α β) :=
  match w.mark? x with
  | some .unseen => w.visit rel n x
  | _ => .ok w

end Walk

variable {α β : Type} [BEq α] [BEq β]

/-- The sets along a relation and the order in which the nodes were met. -/
def digraph (nodes : List α) (rel : α → List α) (start : Sets α β) :
    Except α (Sets α β × List α) := do
  let w : Walk α β :=
    { marks := nodes.map fun x => (x, .unseen), stack := [], met := [], sets := start }
  let w ← nodes.foldlM (Walk.begin rel nodes.length) w
  return (w.sets, w.met)

end QuadLang.Lalr
