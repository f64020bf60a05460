/-
The values of a running program, and what can go wrong with them.

Cells hold numbers, truth values and texts; a constant stays the text that it
was written as.  `Value.toInt` and `Value.toReal` are what reading a cell of a
numeric type does.  `MachineFault` lists why a run stops, with one wording.
-/
import QuadLang.FaultKind
import QuadLang.Number.Numeral
import QuadLang.Text.Lines
import QuadLang.Text.Quoted

namespace QuadLang

inductive Value where
  | none
  | truth (b : Bool)
  | int (i : Int)
  | real (x : Float)
  | text (s : String)
  | list (items : List Value)
  | tuple (items : List Value)
deriving Repr, Inhabited

inductive MachineFault where
  /-- The object text is not one. -/
  | notObject
  | numeral (fault : Number.NumeralFault)
  | longNumber
  | infinite
  | notANumber
  | tooLarge
  | quotientTooLarge
  | notInt (kind : String)
  | notReal (kind : String)
  | notOrdered (op left right : String)
  | notOperands (op left right : String)
  | notConcatenated (left right : String)
  | notRepeated (kind : String)
  | notNegated (sign kind : String)
  | intDivision
  | realDivision
  | intModulo
  | realModulo
  | unknownName (name : String)
  | badExpression
  | badIndex
  | badStore
  | badExtent
  | popEmpty
  | peekEmpty
  | noFrame
  | noEra (function : String)
  | noRange
  /-- Nothing has been assigned, read or printed yet. -/
  | noValue
  /-- No cell can be found for an operand. -/
  | unreachable (operand : String)
  /-- The cell of an operand is empty. -/
  | unassigned (operand : String)
  | invalidStore (operand : String)
  | prohibited (address : Int)
  | outside (index : String) (limit : Int)
  | endOfInput
  | notInverted (operand : String)
  | notSquare
  | notMatrix
  | notNumeric (kind : String)
  | notAligned (rows cols : Nat)
  | notIterable
  | noProduct
deriving Repr, DecidableEq

def MachineFault.message : MachineFault → String
  | .notObject => "quack has commit die"
  | .numeral f => f.message
  | .longNumber => "Exceeds the limit (4300 digits) for integer string conversion; " ++
      "use sys.set_int_max_str_digits() to increase the limit"
  | .infinite => "cannot convert float infinity to integer"
  | .notANumber => "cannot convert float NaN to integer"
  | .tooLarge => "int too large to convert to float"
  | .quotientTooLarge => "integer division result too large for a float"
  | .notInt k =>
    "int() argument must be a string, a bytes-like object or a real number, not '" ++ k ++ "'"
  | .notReal k => "float() argument must be a string or a real number, not '" ++ k ++ "'"
  | .notOrdered op l r =>
    "'" ++ op ++ "' not supported between instances of '" ++ l ++ "' and '" ++ r ++ "'"
  | .notOperands op l r =>
    "unsupported operand type(s) for " ++ op ++ ": '" ++ l ++ "' and '" ++ r ++ "'"
  | .notConcatenated l r => "can only concatenate " ++ l ++ " (not \"" ++ r ++ "\") to " ++ l
  | .notRepeated k => "can't multiply sequence by non-int of type '" ++ k ++ "'"
  | .notNegated s k => "bad operand type for unary " ++ s ++ ": '" ++ k ++ "'"
  | .intDivision => "division by zero"
  | .realDivision => "float division by zero"
  | .intModulo => "integer modulo by zero"
  | .realModulo => "float modulo"
  | .unknownName n => "name '" ++ n ++ "' is not defined"
  | .badExpression => "invalid syntax"
  | .badIndex => "list index out of range"
  | .badStore => "list assignment index out of range"
  | .badExtent => "tuple index out of range"
  | .popEmpty => "pop from an empty deque"
  | .peekEmpty => "deque index out of range"
  | .noFrame => "pop from empty list"
  | .noEra f => Text.quote f
  | .noRange => "cannot access local variable 'ret' where it is not associated with a value"
  | .noValue => "cannot access local variable 'value' where it is not associated with a value"
  | .unreachable o | .unassigned o => "Var is not assigned in memory?! -> (" ++ o ++ ")"
  | .invalidStore o => "Setting in invalid memory! -> (" ++ o ++ ")"
  | .prohibited a => "Accessing prohibited memory! -> (" ++ toString a ++ ")"
  | .outside i limit => i ++ " is out of bounds of range 0-" ++ toString (limit - 1)
  | .endOfInput => "EOF when reading a line"
  | .notInverted o => "This matrix can't be inverted! -> (" ++ o ++ ")"
  | .notSquare => "Last 2 dimensions of the array must be square"
  | .notMatrix => "1-dimensional array given. Array must be at least two-dimensional"
  | .notNumeric k => "Cannot cast ufunc 'det' input from dtype('" ++ k ++
      "') to dtype('float64') with casting rule 'same_kind'"
  | .notAligned r c => "shapes (0,) and (" ++ toString r ++ "," ++ toString c ++
      ") not aligned: 0 (dim 0) != " ++ toString r ++ " (dim 0)"
  | .notIterable => "'float' object is not iterable"
  | .noProduct => "dot not available for this type"

def MachineFault.kind : MachineFault → FaultKind
  | .numeral _ | .longNumber | .notANumber | .notAligned .. | .noProduct => .value
  | .infinite | .tooLarge | .quotientTooLarge => .overflow
  | .notInt _ | .notReal _ | .notOrdered .. | .notOperands .. | .notConcatenated .. | .notRepeated _
  | .notNegated .. | .notIterable => .type
  | .intDivision | .realDivision | .intModulo | .realModulo => .division
  | .unknownName _ => .name
  | .badIndex | .badStore | .badExtent | .popEmpty | .peekEmpty | .noFrame => .index
  | .noEra _ => .key
  | .noRange | .noValue => .unset
  | .unassigned _ => .part
  | .endOfInput => .endOfInput
  | .notSquare | .notMatrix => .matrix
  | .notNumeric _ => .elementwise
  | .badExpression => .expression
  | _ => .general

namespace Value

def kindName : Value → String
  | .none => "NoneType"
  | .truth _ => "bool"
  | .int _ => "int"
  | .real _ => "float"
  | .text _ => "str"
  | .list _ => "list"
  | .tuple _ => "tuple"

def truthWord (b : Bool) : String := if b then "True" else "False"

/-- The text of an integer, unless it is too long. -/
def intText (i : Int) : Except MachineFault String :=
  match Number.writeInt? i with
  | .some s => .ok s
  | .none => .error .longNumber

def shown : Value → Except MachineFault String
  | .none => .ok "None"
  | .truth b => .ok (truthWord b)
  | .int i => intText i
  | .real x => .ok (Number.writeFloat x)
  | .text s => .ok (Text.quote s)
  | .list items => do return "[" ++ Text.join ", " (← shownAll items) ++ "]"
  | .tuple items => do
    match ← shownAll items with
    | [t] => return "(" ++ t ++ ",)"
    | texts => return "(" ++ Text.join ", " texts ++ ")"
where
  shownAll : List Value → Except MachineFault (List String)
    | [] => .ok []
    | x :: rest => do
      let t ← x.shown
      return t :: (← shownAll rest)

def plain : Value → Except MachineFault String
  | .text s => .ok s
  | v => v.shown

def truthy : Value → Bool
  | .none => false
  | .truth b => b
  | .int i => i != 0
  | .real x => !(x == 0)
  | .text s => s != ""
  | .list xs | .tuple xs => !xs.isEmpty

def ofTruth (b : Bool) : Int := if b then 1 else 0

/-- A value as an integer, fractions cut off. -/
def toInt : Value → Except MachineFault Int
  | .truth b => .ok (ofTruth b)
  | .int i => .ok i
  | .real x =>
    match Number.truncate? x with
    | some i => .ok i
    | .none => .error (if x.isNaN then .notANumber else .infinite)
  | .text s =>
    match Number.readInt s with
    | .ok i => .ok i
    | .error f => .error (.numeral f)
  | v => .error (.notInt v.kindName)

/-- An integer as a real, unless it is too large. -/
def realOf (i : Int) : Except MachineFault Float :=
  match Number.ofInt? i with
  | some x => .ok x
  | Option.none => .error .tooLarge

def toReal : Value → Except MachineFault Float
  | .truth b => realOf (ofTruth b)
  | .int i => realOf i
  | .real x => .ok x
  | .text s =>
    match Number.readFloat s with
    | .ok x => .ok x
    | .error f => .error (.numeral f)
  | v => .error (.notReal v.kindName)

end Value

end QuadLang
