/-
Matrices of values.

The entries of a matrix are brought to one kind before anything is computed:
truth values, signed or unsigned words of 64 bits, reals, texts, or values of any
kind, computed exactly.  Words wrap around in products.  Determinants and
inverses are computed on reals by elimination, each time with the largest pivot
of the column.
-/
import QuadLang.Machine.Operator

namespace QuadLang

inductive EntryKind where
  | truth
  | signed
  | unsigned
  | real
  | text (width : Nat)
  | any
deriving Repr, DecidableEq

abbrev Rows := List (List Value)

namespace EntryKind

def fitsSigned (i : Int) : Bool := -Int.pow 2 63 ≤ i && i < Int.pow 2 63

def fitsUnsigned (i : Int) : Bool := 0 ≤ i && i < Int.pow 2 64

/-- Whether a value can only be kept as it is. -/
def isOdd : Value → Bool
  | .int i => !fitsSigned i && !fitsUnsigned i
  | .none | .list _ | .tuple _ => true
  | _ => false

def isReal : Value → Bool
  | .real _ => true
  | _ => false

def textWidth : Value → Nat
  | .text s => max 1 s.length
  | .truth _ => 5
  | .int _ => 21
  | _ => 32

def ofValues (vs : List Value) : EntryKind :=
  if vs.any isOdd then .any
  else if vs.any fun v => match v with | .text _ => true | _ => false then
    .text (vs.foldl (fun w v => max w (textWidth v)) 1)
  else if vs.any isReal || vs.isEmpty then .real
  else if vs.all fun v => match v with | .truth _ => true | _ => false then .truth
  else
    let ints := vs.filterMap Value.int?
    if ints.all fitsSigned then .signed
    else if ints.all fitsUnsigned then .unsigned
    else .real

/-- The kind of a product. -/
def join : EntryKind → EntryKind → EntryKind
  | .any, _ | _, .any => .any
  | .text a, .text b => .text (max a b)
  | .text a, _ | _, .text a => .text a
  | .real, _ | _, .real => .real
  | .truth, k | k, .truth => k
  | .signed, .signed => .signed
  | .unsigned, .unsigned => .unsigned
  | .signed, .unsigned | .unsigned, .signed => .real

def name : EntryKind → String
  | .truth => "bool"
  | .signed => "int64"
  | .unsigned => "uint64"
  | .real => "float64"
  | .text w => "<U" ++ toString w
  | .any => "O"

/-- An integer as a word. -/
def wrap (k : EntryKind) (i : Int) : Int :=
  match k with
  | .signed => Int.bmod i (Nat.pow 2 64)
  | .unsigned => i.emod (Int.pow 2 64)
  | _ => i

def entryReal (v : Value) : Float :=
  match v.toReal with
  | .ok x => x
  | .error _ => Number.notANumber

def convert (k : EntryKind) (v : Value) : Value :=
  match k with
  | .truth | .any => v
  | .signed | .unsigned => .int (v.int?.getD 0)
  | .real => .real (entryReal v)
  | .text _ =>
    match v.plain with
    | .ok s => .text s
    | .error _ => v

end EntryKind

namespace Rows

def kind (m : Rows) : EntryKind := EntryKind.ofValues m.flatten

def unify (m : Rows) : Rows := m.map fun row => row.map (kind m).convert

/-- The columns of a matrix with `n` columns. -/
def columns (m : Rows) (n : Nat) : Rows :=
  (List.range n).map fun j => m.filterMap fun row => row[j]?

def transpose (m : Rows) : Rows :=
  let m := unify m
  columns m ((m.head?.map List.length).getD 0)

/-- The sum of the products of two lists of values, computed exactly. -/
def productExact : List Value → List Value → Except MachineFault Value
  | a :: as, b :: bs => do
    let first ← Operator.apply .mul a b
    (as.zip bs).foldlM (fun acc (x, y) => do Operator.apply .add acc (← Operator.apply .mul x y)) first
  | _, _ => .ok (.truth false)

def productOf (k : EntryKind) (row col : List Value) : Except MachineFault Value :=
  match k with
  | .truth => .ok (.truth ((row.zip col).any fun (a, b) => a.truthy && b.truthy))
  | .signed | .unsigned =>
    .ok (.int ((row.zip col).foldl (fun acc (a, b) =>
      k.wrap (acc + (a.int?.getD 0) * (b.int?.getD 0))) 0))
  | .real =>
    .ok (.real ((row.zip col).foldl (fun acc (a, b) =>
      acc + EntryKind.entryReal a * EntryKind.entryReal b) 0))
  | .any => productExact row col
  | .text _ => .error .noProduct

def product (m n p : Nat) (left right : Rows) : Except MachineFault Rows :=
  if m == 0 && n != 0 then .error (.notAligned n p)
  else if n == 0 then .error .notIterable
  else
    let k := (kind left).join (kind right)
    let cols := columns (unify right) p
    match k with
    | .text _ => .error .noProduct
    | k => (unify left).mapM fun row => cols.mapM fun col => productOf k row col

/-- A square matrix as rows of reals. -/
def reals (rows cols : Nat) (m : Rows) : Except MachineFault (List (List Float)) :=
  if rows == 0 then .error .notMatrix
  else if rows != cols then .error .notSquare
  else
    match kind m with
    | .any => .error (.notNumeric EntryKind.any.name)
    | .text w => .error (.notNumeric (EntryKind.text w).name)
    | _ => .ok ((unify m).map fun row => row.map EntryKind.entryReal)

end Rows

namespace Elimination

/-- The place of the first entry of the largest magnitude in the first column. -/
def pivotPlace (rows : List (List Float)) : Nat :=
  let firsts := rows.map fun row => (row.headD 0).abs
  (firsts.zipIdx.foldl (fun (best, place) (x, i) => if x > best then (x, i) else (best, place))
    (firsts.headD 0, 0)).2

def exchange (rows : List (List Float)) (place : Nat) : List (List Float) :=
  match rows, rows[place]? with
  | first :: _, some pivot => pivot :: (rows.set place first).drop 1
  | _, _ => rows

/-- Take the pivot row from a row, so that its first entry goes. -/
def reduceRow (pivot row : List Float) : List Float :=
  let f := row.headD 0 / pivot.headD 1
  ((row.drop 1).zip (pivot.drop 1)).map fun (x, p) => x - f * p

/-- Eliminate column after column: the pivot rows, and whether rows were
exchanged an odd number of times.  There is no answer when a pivot is zero. -/
def eliminate : Nat → List (List Float) → Option (List (List Float) × Bool)
  | 0, _ => some ([], false)
  | n + 1, rows =>
    let place := pivotPlace rows
    match exchange rows place with
    | [] => some ([], false)
    | pivot :: rest =>
      if pivot.headD 0 == 0 then none
      else (eliminate n (rest.map (reduceRow pivot))).map fun (pivots, odd) =>
        (pivot :: pivots, odd != (place != 0))

/-- The determinant, from the logarithms of the pivots. -/
def determinant (rows : List (List Float)) : Float :=
  match eliminate rows.length rows with
  | none => 0
  | some (pivots, odd) =>
    let (sign, log) := pivots.foldl (fun (sign, log) row =>
      let x := row.headD 0
      (if x < 0 then -sign else sign, log + x.abs.log)) (if odd then (-1 : Float) else 1, (0 : Float))
    sign * log.exp

def unitRow (n i : Nat) : List Float := (List.range n).map fun j => if i == j then 1 else 0

/-- Solve for the unknowns from the last pivot row up: each row has its
coefficients from its own unknown on, and then its right sides. -/
def substitute : List (List Float) → List (List Float)
  | [] => []
  | row :: below =>
    let solved := substitute below
    let rights := row.drop (1 + solved.length)
    let values := ((row.drop 1).zip solved).reverse.foldl (fun acc (c, xs) =>
      (acc.zip xs).map fun (a, x) => a - c * x) rights
    values.map (· / row.headD 1) :: solved

def inverse (rows : List (List Float)) : Option (List (List Float)) :=
  let n := rows.length
  (eliminate n (rows.zipIdx.map fun (row, i) => row ++ unitRow n i)).map fun (pivots, _) =>
    substitute pivots

end Elimination

end QuadLang
