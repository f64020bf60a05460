/-
The state of a compilation.

While a program is read, the compiler keeps the functions with their variables,
the constants, the quads made so far, and stacks of operands, operators, open
jumps, loops, calls and array accesses.  A step changes this state and may stop
with a `CompileFault`; the state that it leaves is kept then too.

Design notes: a quad is a row of fields, so that rows of another length can be
held and found wrong later.  What the compiler prints is part of its state, the
latest line first.
-/
import QuadLang.Dialect.Token
import QuadLang.FaultKind
import QuadLang.Number.Binary64
import QuadLang.Space
import QuadLang.Table
import QuadLang.Text.Lines

namespace QuadLang

/-- Where an operand is: in a cell, or in the cell whose address a cell holds. -/
inductive Address where
  | cell (n : Int)
  | pointer (n : Int)
deriving Repr, DecidableEq

def Address.text : Address → String
  | .cell n => toString n
  | .pointer n => "(" ++ toString n ++ ",)"

inductive Field where
  | none
  | text (s : String)
  | number (i : Int)
  | pointer (i : Int)
deriving Repr, DecidableEq

namespace Field

def address : Address → Field
  | .cell n => .number n
  | .pointer n => .pointer n

def number? : Option Int → Field
  | .some n => .number n
  | .none => .none

def shown : Field → String
  | .none => "None"
  | .text s => s
  | .number i => toString i
  | .pointer i => (Address.pointer i).text

end Field

/-- An instruction: operator, two operands and a result. -/
abbrev Quad := List Field

def shownInts (xs : List Int) : String := "[" ++ Text.join ", " (xs.map toString) ++ "]"

structure Operand where
  name : Literal
  address : Address
  type : Ty
  dims : List Int
deriving Repr

structure Variable where
  name : String
  type : Ty
  address : Int
  dims : List Int
deriving Repr, DecidableEq

structure Param where
  type : Ty
  address : Int
  dims : List Int
deriving Repr, DecidableEq

structure Function where
  name : String
  returnType : Ty
  returnAddress : Option Int
  returnDims : List Int
  /-- The number of its first quad. -/
  start : Option Int
  /-- Its variables; there may be no table at all. -/
  declared : Option (Table Variable)
  params : List Param
  /-- The cells that it needs, when it is finished. -/
  era : List (List Int)
deriving Repr

structure Constant where
  value : Literal
  type : Ty
  address : Int
deriving Repr

/-- Whether two values are equal.  Truth values count as the numbers 1 and 0. -/
def Literal.same : Literal → Literal → Bool
  | .text a, .text b => a == b
  | .text _, _ | _, .text _ => false
  | .real x, .real y => x == y
  | .real x, .int i | .int i, .real x => Number.compareInt i x == some .eq
  | .real x, .truth b | .truth b, .real x => Number.compareInt (if b then 1 else 0) x == some .eq
  | .int i, .int j => i == j
  | .int i, .truth b | .truth b, .int i => i == if b then 1 else 0
  | .truth a, .truth b => a == b

inductive CompileFault where
  | typeMismatch (left op right : String)
  | operandMismatch (type op : String)
  | dimsMismatch (left right : List Int)
  | notMatrix (name op : String)
  | notSquare (name op : String)
  | dotDims (left right : List Int)
  | returnInMain
  | returnInVoid
  | returnType (found expected : String)
  | returnDims (found expected : List Int)
  | conditionType (type : String)
  | breakOutside
  | indexDims (address : Address) (dims : List Int)
  | paramType (found expected : String)
  | paramDims (found expected : List Int)
  | missingReturn
  | voidAsValue (name : String)
  | valueAsStatement (name : String)
  | unknownVariable (name : String)
  | unknownFunction (name : String)
  | wrongArity (name : String)
  | tooManyIndexes (name : String) (dims depth : Int)
  | variableExists (name : String)
  | functionExists (name : String)
  | paramExists (name : String)
  | badSize (shown : Option Int)
  | space (fault : SpaceFault)
  | badToken (line : Nat) (text : String)
  | badNumeral (fault : Number.NumeralFault)
  /-- The program ends too early. -/
  | unexpectedEnd
  | popEmpty
  | peekEmpty
  | noParam
  | noEra
  | shortQuad
  | shortStore
  | noFunction (name : Option String)
  | noVariable (name : String)
  | noConstant (value : Literal) (type : String)
  | noTable
  | noTableStore
  | noTableEntry
  | noShape
  | noDimension
  | longNumber
  /-- The parser took more steps than it may. -/
  | endless
deriving Repr

def CompileFault.message : CompileFault → String
  | .typeMismatch l op r => "Type mismatch! " ++ l ++ " " ++ op ++ " " ++ r
  | .operandMismatch t op => "Type mismatch! " ++ t ++ " " ++ op
  | .dimsMismatch l r => "Dimension mismatch! " ++ shownInts l ++ " != " ++ shownInts r
  | .notMatrix n op => n ++ " must be a matrix to use the " ++ op ++ " operator!"
  | .notSquare n op => n ++ " must be a square matrix to use the " ++ op ++ " operator!"
  | .dotDims l r => "Incompatible dimensions! " ++ shownInts l ++ " " ++ shownInts r
  | .returnInMain => "You can't have a return statement on main()!"
  | .returnInVoid => "There can't be return statements in non-void functions!"
  | .returnType f e => "Returned variable doesn't match return type! -> " ++ f ++ " != " ++ e
  | .returnDims f e =>
    "Returned variable doesn't match return dimensions! -> " ++ shownInts f ++ " != " ++ shownInts e
  | .conditionType t => "Type mismatch! " ++ t ++ " != bool"
  | .breakOutside => "Can't use BREAK outside of a loop!"
  | .indexDims a d =>
    "Array indexes must be an atomic value! -> (" ++ a.text ++ ") - " ++ shownInts d
  | .paramType f e => "Wrong param type! " ++ f ++ " != " ++ e
  | .paramDims f e => "Wrong param dimensions! " ++ shownInts f ++ " != " ++ shownInts e
  | .missingReturn => "This function is missing a return statement!"
  | .voidAsValue n => "This function is void and cannot be used as an expression! -> " ++ n
  | .valueAsStatement n =>
    "This function is non-void, therefore it can't be used as an expression! -> " ++ n
  | .unknownVariable n => "Variable " ++ n ++ " does not exist!"
  | .unknownFunction n => "Function " ++ n ++ "() does not exist!"
  | .wrongArity n => "Wrong number of parameters in " ++ n ++ "!"
  | .tooManyIndexes n d i => n ++ " has " ++ toString d ++ " dimension(s)! -> " ++ toString i
  | .variableExists n => "Variable \"" ++ n ++ "\" already exists!\""
  | .functionExists n => "Function \"" ++ n ++ "\" already exists!\""
  | .paramExists n => "Multiple declaration of \"" ++ n ++ "\"!"
  | .badSize n => "Zero or negative indexes are not allowed! [" ++ (Field.number? n).shown ++ "]"
  | .space (.full t s) => "Out of bounds! " ++ t ++ " in " ++ s
  | .space .notStorable => "tuple indices must be integers or slices, not NoneType"
  | .badToken l t => "(" ++ toString l ++ ") Syntax error at \"" ++ t ++ "\""
  | .badNumeral f => f.message
  | .unexpectedEnd => "'NoneType' object has no attribute 'lineno'"
  | .popEmpty => "pop from an empty deque"
  | .peekEmpty => "deque index out of range"
  | .noParam | .noEra | .shortQuad | .noDimension => "list index out of range"
  | .shortStore => "list assignment index out of range"
  | .noFunction none => "None"
  | .noFunction (some n) => Text.quote n
  | .noVariable n => Text.quote n
  | .noConstant v t => "(" ++ v.shown ++ ", " ++ Text.quote t ++ ")"
  | .noTable => "argument of type 'NoneType' is not iterable"
  | .noTableStore => "'NoneType' object does not support item assignment"
  | .noTableEntry => "'NoneType' object is not subscriptable"
  | .noShape => "cannot access local variable 'rows' where it is not associated with a value"
  | .longNumber => "Exceeds the limit (4300 digits) for integer string conversion; " ++
      "use sys.set_int_max_str_digits() to increase the limit"
  | .endless => "the parser does not end"

def CompileFault.kind : CompileFault → FaultKind
  | .unexpectedEnd => .part
  | .popEmpty | .peekEmpty | .noParam | .noEra | .shortQuad | .shortStore | .noDimension => .index
  | .noFunction _ | .noVariable _ | .noConstant .. => .key
  | .noTable | .noTableStore | .noTableEntry | .space .notStorable => .type
  | .noShape => .unset
  | .badNumeral _ | .longNumber => .value
  | _ => .general

structure Compiler where
  /-- Whether to print what is done. -/
  debug : Bool
  /-- The name of the object text, for messages. -/
  objectName : String
  functions : Table Function
  constants : List Constant
  globalName : Option String
  currentName : Option String
  currentType : Ty
  paramCount : Int
  /-- The variable named last. -/
  named : Option String
  space : Space
  quads : Array Quad
  operands : List Operand
  operators : List String
  jumps : List Int
  breaks : List (List Int)
  calls : List String
  /-- The arrays being indexed, with the number of indexes so far. -/
  accesses : List (Option String × Int)
  tempCount : Int
  returnCount : Int
  /-- What was printed, latest first. -/
  printed : List String
  /-- The object text, once it has been made. -/
  object : Option String
deriving Repr

def Compiler.start (debug : Bool) (objectName : String) : Compiler where
  debug := debug
  objectName := objectName
  functions := []
  constants := []
  globalName := none
  currentName := none
  currentType := .void
  paramCount := 0
  named := none
  space := .empty
  quads := #[]
  operands := []
  operators := []
  jumps := []
  breaks := []
  calls := []
  accesses := []
  tempCount := 0
  returnCount := 0
  printed := []
  object := none

/-- A step of a compilation: it changes the state and may stop. -/
abbrev Compile (α : Type) := ExceptT CompileFault (StateM Compiler) α

namespace Compile

def print (line : String) : Compile Unit :=
  modify fun c => { c with printed := (line ++ "\n") :: c.printed }

def say (line : Unit → String) : Compile Unit := do
  if (← get).debug then print (line ())

/-- The indentation of remarks when debugging. -/
def remark (line : Unit → String) : Compile Unit := say fun _ => "\t\t\t\t\t" ++ line ()

def take (request : Space → Space × Except SpaceFault Int) : Compile Int := do
  let c ← get
  let (space, result) := request c.space
  set { c with space }
  match result with
  | .ok address => return address
  | .error fault => throw (.space fault)

/-- Take the top of a stack. -/
def pop {α : Type} (stack : Compiler → List α) (put : Compiler → List α → Compiler) :
    Compile α := do
  let c ← get
  match stack c with
  | x :: rest => set (put c rest); return x
  | [] => throw .popEmpty

def popOperand : Compile Operand := pop (·.operands) fun c s => { c with operands := s }

def popOperator : Compile String := pop (·.operators) fun c s => { c with operators := s }

def popJump : Compile Int := pop (·.jumps) fun c s => { c with jumps := s }

def popBreaks : Compile (List Int) := pop (·.breaks) fun c s => { c with breaks := s }

def popCall : Compile String := pop (·.calls) fun c s => { c with calls := s }

def popAccess : Compile (Option String × Int) := pop (·.accesses) fun c s => { c with accesses := s }

def pushOperand (o : Operand) : Compile Unit :=
  modify fun c => { c with operands := o :: c.operands }

def pushOperator (op : String) : Compile Unit :=
  modify fun c => { c with operators := op :: c.operators }

def pushJump (n : Int) : Compile Unit := modify fun c => { c with jumps := n :: c.jumps }

def topCall : Compile String := do
  match (← get).calls with
  | f :: _ => return f
  | [] => throw .peekEmpty

def quadCount : Compile Int := return ((← get).quads.size : Int)

end Compile

end QuadLang
