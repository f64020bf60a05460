/-
Types and the results of operators.

Cells hold one of four scalar types.  A type of a program is one of these, or
`void` for functions that return nothing.  `Ty.combine` and `Ty.apply` give the
type of the result of an operator, when its operands fit.
-/
namespace QuadLang

inductive Scalar where
  | int
  | float
  | char
  | bool
deriving Repr, DecidableEq

namespace Scalar

/-- The four types in the order of memory. -/
def all : List Scalar := [.int, .float, .char, .bool]

def name : Scalar → String
  | .int => "int"
  | .float => "float"
  | .char => "char"
  | .bool => "bool"

def ofName? : String → Option Scalar
  | "int" => some .int
  | "float" => some .float
  | "char" => some .char
  | "bool" => some .bool
  | _ => none

def index : Scalar → Nat
  | .int => 0
  | .float => 1
  | .char => 2
  | .bool => 3

def isNumeric : Scalar → Bool
  | .int | .float => true
  | .char | .bool => false

end Scalar

/-- The types of a program.  Any other word can be named as a type; nothing can
be stored in it. -/
inductive Ty where
  | of (s : Scalar)
  | void
  | other (name : String)
deriving Repr, DecidableEq

namespace Ty

def name : Ty → String
  | .of s => s.name
  | .void => "void"
  | .other n => n

/-- The type that a word of the language names. -/
def ofName (s : String) : Ty :=
  match Scalar.ofName? s with
  | some t => .of t
  | none => if s == "void" then .void else .other s

/-- The scalar type, if it is one. -/
def scalar? : Ty → Option Scalar
  | .of s => some s
  | _ => none

end Ty

def orderings : List String := ["<", "<=", ">", ">="]

def equalities : List String := ["==", "!="]

namespace Scalar

/-- The type of the result of an operator between two types. -/
def combine (left right : Scalar) (op : String) : Option Scalar :=
  match left, right with
  | .char, .char =>
    if op == "=" then some .char else if equalities.contains op then some .bool else none
  | .bool, .bool =>
    if op == "=" || op == "&" || op == "|" || equalities.contains op then some .bool else none
  | l, r =>
    if !l.isNumeric || !r.isNumeric then none
    else if orderings.contains op || equalities.contains op then some .bool
    else
      let result : Scalar := if l == .int && r == .int then .int else .float
      if op == "+" || op == "-" || op == "*" || op == "/" || op == "." then some result
      else if op == "=" then (if l == .int && r == .float then none else some l)
      else if op == "%" then (if result == .int then some .int else none)
      else none

/-- The type of the result of an operator on a matrix. -/
def apply (t : Scalar) (op : String) : Option Scalar :=
  if op == "!" then some t
  else if !t.isNumeric then none
  else if op == "$" then some t
  else if op == "?" then some .float
  else none

end Scalar

namespace Ty

/-- The type of the result of an operator between two types. -/
def combine (left right : Ty) (op : String) : Option Scalar := do
  (← left.scalar?).combine (← right.scalar?) op

/-- The type of the result of an operator on a matrix. -/
def apply (t : Ty) (op : String) : Option Scalar := do
  (← t.scalar?).apply op

end Ty

end QuadLang
