/-
Operators on values.

Integers are exact, except that a quotient is the nearest real; truth values
count as the integers 1 and 0; an integer that meets a real becomes one, and
compares with it exactly.  `Operator.apply` gives the result of an operator
between two values that are known.
-/
import QuadLang.Machine.Value

namespace QuadLang

inductive Operator where
  | add
  | sub
  | mul
  | div
  | mod
  | eq
  | ne
  | lt
  | le
  | gt
  | ge
  | and
  | or
deriving Repr, DecidableEq

namespace Operator

/-- The operators with the words that stand for them in quads. -/
def words : List (String × Operator) :=
  [("+", .add), ("-", .sub), ("/", .div), ("*", .mul), ("%", .mod), ("==", .eq), ("!=", .ne),
   ("<", .lt), ("<=", .le), (">", .gt), (">=", .ge), ("&", .and), ("|", .or)]

def ofWord? (s : String) : Option Operator := words.lookup s

def sign : Operator → String
  | .add => "+"
  | .sub => "-"
  | .mul => "*"
  | .div => "/"
  | .mod => "%"
  | .eq => "=="
  | .ne => "!="
  | .lt => "<"
  | .le => "<="
  | .gt => ">"
  | .ge => ">="
  | .and => "and"
  | .or => "or"

end Operator

/-- A number: an integer or a real. -/
inductive Number.Num where
  | int (i : Int)
  | real (x : Float)

namespace Value

def num? : Value → Option Number.Num
  | .truth b => some (.int (ofTruth b))
  | .int i => some (.int i)
  | .real x => some (.real x)
  | _ => .none

/-- How two numbers compare; none when one of them is no number. -/
def compareNum : Number.Num → Number.Num → Option Ordering
  | .int a, .int b => some (compare a b)
  | .int a, .real y => Number.compareInt a y
  | .real x, .int b => (Number.compareInt b x).map Ordering.swap
  | .real x, .real y =>
    if x < y then some .lt else if x == y then some .eq else if y < x then some .gt else .none

/-- How two texts compare, character by character. -/
def compareChars : List Char → List Char → Ordering
  | [], [] => .eq
  | [], _ :: _ => .lt
  | _ :: _, [] => .gt
  | a :: as, b :: bs => if a < b then .lt else if b < a then .gt else compareChars as bs

def same : Value → Value → Bool
  | .none, .none => true
  | .text a, .text b => a == b
  | .list as, .list bs => sameAll as bs
  | .tuple as, .tuple bs => sameAll as bs
  | a, b =>
    match a.num?, b.num? with
    | some x, some y => compareNum x y == some .eq
    | _, _ => false
where
  sameAll : List Value → List Value → Bool
    | [], [] => true
    | a :: as, b :: bs => same a b && sameAll as bs
    | _, _ => false

def holds (op : Operator) (o : Ordering) : Bool :=
  match op with
  | .lt => o == .lt
  | .le => o != .gt
  | .gt => o == .gt
  | .ge => o != .lt
  | _ => false

def order (op : Operator) : Value → Value → Except MachineFault Bool
  | .text a, .text b => .ok (holds op (compareChars a.toList b.toList))
  | .list as, .list bs => orderAll op as bs
  | .tuple as, .tuple bs => orderAll op as bs
  | a, b =>
    match a.num?, b.num? with
    | some x, some y => .ok (((compareNum x y).map (holds op)).getD false)
    | _, _ => .error (.notOrdered op.sign a.kindName b.kindName)
where
  /-- Lists compare by the first place where they differ. -/
  orderAll (op : Operator) : List Value → List Value → Except MachineFault Bool
    | [], [] => .ok (holds op .eq)
    | [], _ :: _ => .ok (holds op .lt)
    | _ :: _, [] => .ok (holds op .gt)
    | a :: as, b :: bs => if same a b then orderAll op as bs else order op a b

def intArithmetic (op : Operator) (a b : Int) : Except MachineFault Value :=
  match op with
  | .add => .ok (.int (a + b))
  | .sub => .ok (.int (a - b))
  | .mul => .ok (.int (a * b))
  | .div =>
    if b == 0 then .error .intDivision
    else match Number.quotient? a b with
      | some x => .ok (.real x)
      | .none => .error .quotientTooLarge
  | .mod => if b == 0 then .error .intModulo else .ok (.int (a.fmod b))
  | _ => .error .badExpression

def realArithmetic (op : Operator) (x y : Float) : Except MachineFault Value :=
  match op with
  | .add => .ok (.real (x + y))
  | .sub => .ok (.real (x - y))
  | .mul => .ok (.real (x * y))
  | .div => if y == 0 then .error .realDivision else .ok (.real (x / y))
  | .mod => if y == 0 then .error .realModulo else .ok (.real (Number.floorMod x y))
  | _ => .error .badExpression

def numReal : Number.Num → Except MachineFault Float
  | .int i => realOf i
  | .real x => .ok x

def numArithmetic (op : Operator) : Number.Num → Number.Num → Except MachineFault Value
  | .int a, .int b => intArithmetic op a b
  | a, b => do realArithmetic op (← numReal a) (← numReal b)

/-- A text or a list repeated. -/
def repeated (v : Value) (n : Int) : Value :=
  match v with
  | .text s => .text (String.join (List.replicate n.toNat s))
  | .list xs => .list (List.replicate n.toNat xs).flatten
  | .tuple xs => .tuple (List.replicate n.toNat xs).flatten
  | v => v

def isSequence : Value → Bool
  | .text _ | .list _ | .tuple _ => true
  | _ => false

def int? : Value → Option Int
  | .truth b => some (ofTruth b)
  | .int i => some i
  | _ => .none

/-- An arithmetic operator between values that are not both numbers. -/
def sequenceArithmetic (op : Operator) (a b : Value) : Except MachineFault Value :=
  match op, a, b with
  | .add, .text s, .text t => .ok (.text (s ++ t))
  | .add, .list xs, .list ys => .ok (.list (xs ++ ys))
  | .add, .tuple xs, .tuple ys => .ok (.tuple (xs ++ ys))
  | .add, a, b =>
    .error (if a.isSequence then .notConcatenated a.kindName b.kindName
      else .notOperands "+" a.kindName b.kindName)
  | .mul, a, b =>
    if a.isSequence then
      match b.int? with
      | some n => .ok (repeated a n)
      | .none => .error (.notRepeated b.kindName)
    else if b.isSequence then
      match a.int? with
      | some n => .ok (repeated b n)
      | .none => .error (.notRepeated a.kindName)
    else .error (.notOperands "*" a.kindName b.kindName)
  | op, a, b => .error (.notOperands op.sign a.kindName b.kindName)

def arithmetic (op : Operator) (a b : Value) : Except MachineFault Value :=
  match a.num?, b.num? with
  | some x, some y => numArithmetic op x y
  | _, _ => sequenceArithmetic op a b

end Value

def Operator.apply (op : Operator) (a b : Value) : Except MachineFault Value :=
  match op with
  | .and => .ok (if a.truthy then b else a)
  | .or => .ok (if a.truthy then a else b)
  | .eq => .ok (.truth (a.same b))
  | .ne => .ok (.truth (!a.same b))
  | .lt | .le | .gt | .ge => (Value.order op a b).map .truth
  | _ => Value.arithmetic op a b

end QuadLang
