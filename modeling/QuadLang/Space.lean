/-
The address space.

Memory has four segments: global cells, the cells of the function at work,
temporary cells and constants.  Each segment has one range of addresses per
scalar type.  A `Space` counts the cells in use in every range and hands out
addresses one after the other; the last cell of a range and the one before it
are never given away.
-/
import QuadLang.Types

namespace QuadLang

inductive Segment where
  | global
  | local
  | temp
  | constant
deriving Repr, DecidableEq

namespace Segment

/-- The segment that a scope uses: `main`, `temp` and `cte` have their own, every
other scope is a function. -/
def ofScope : String → Segment
  | "main" => .global
  | "temp" => .temp
  | "cte" => .constant
  | _ => .local

/-- The segments in the order of memory. -/
def all : List Segment := [.global, .local, .temp, .constant]

/-- The bounds of the ranges of a segment: the first address for each type and
the first address after the segment. -/
def bounds : Segment → List Int
  | .global => [1000, 4000, 7000, 8000, 9000]
  | .local => [9000, 13000, 17000, 18500, 20000]
  | .temp => [20000, 24000, 28000, 29500, 31000]
  | .constant => [31000, 34000, 37000, 37500, 38000]

def start (s : Segment) (t : Scalar) : Int := s.bounds.getD t.index 0

def stop (s : Segment) (t : Scalar) : Int := s.bounds.getD (t.index + 1) 0

end Segment

/-- The numbers of cells in use, one per scalar type. -/
structure Counts where
  int : Int
  float : Int
  char : Int
  bool : Int
deriving Repr, DecidableEq

namespace Counts

def zero : Counts := { int := 0, float := 0, char := 0, bool := 0 }

def get (c : Counts) : Scalar → Int
  | .int => c.int
  | .float => c.float
  | .char => c.char
  | .bool => c.bool

def put (c : Counts) (t : Scalar) (n : Int) : Counts :=
  match t with
  | .int => { c with int := n }
  | .float => { c with float := n }
  | .char => { c with char := n }
  | .bool => { c with bool := n }

/-- The four numbers in the order of memory. -/
def toList (c : Counts) : List Int := [c.int, c.float, c.char, c.bool]

end Counts

/-- What is in use. -/
structure Space where
  globals : Counts
  locals : Counts
  temps : Counts
  constants : Counts
  /-- All cells ever asked for. -/
  total : Int
deriving Repr, DecidableEq

/-- Why there is no address. -/
inductive SpaceFault where
  | full (type scope : String)
  | notStorable
deriving Repr, DecidableEq

namespace Space

def empty : Space :=
  { globals := .zero, locals := .zero, temps := .zero, constants := .zero, total := 0 }

def counts (s : Space) : Segment → Counts
  | .global => s.globals
  | .local => s.locals
  | .temp => s.temps
  | .constant => s.constants

def withCounts (s : Space) (segment : Segment) (c : Counts) : Space :=
  match segment with
  | .global => { s with globals := c }
  | .local => { s with locals := c }
  | .temp => { s with temps := c }
  | .constant => { s with constants := c }

/-- Take `n` more cells of a type in a scope: the address of the last one. -/
def take (s : Space) (scope : String) (type : Ty) (n : Int) : Space × Except SpaceFault Int :=
  let s := { s with total := s.total + n }
  match type.scalar? with
  | none => (s, .error .notStorable)
  | some t =>
    let segment := Segment.ofScope scope
    let used := (s.counts segment).get t
    if segment.start t + used + n ≥ segment.stop t - 1 then (s, .error (.full type.name scope))
    else
      (s.withCounts segment ((s.counts segment).put t (used + n)),
        .ok (segment.start t + (used + n) - 1))

def takeOne (s : Space) (scope : String) (type : Ty) : Space × Except SpaceFault Int :=
  s.take scope type 1

/-- Take the rest of the cells of an array whose first cell has been taken. -/
def takeRest (s : Space) (scope : String) (type : Ty) (size : Int) :
    Space × Except SpaceFault Int :=
  s.take scope type (size - 1)

def resetLocals (s : Space) : Space := { s with locals := .zero, temps := .zero }

/-- The cells that the function at work needs: its own and temporary ones. -/
def era (s : Space) : Counts × Counts := (s.locals, s.temps)

end Space

end QuadLang
