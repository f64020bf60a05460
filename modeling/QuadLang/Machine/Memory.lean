/-
The memory of a running program.

Global cells and constants have one frame each.  Local and temporary cells are in
frames of their own: the main program has frames for the whole of their ranges,
and a call gets compact ones, in which the cells of the four types follow each
other (`localIndex`).

Design notes: a frame that has been prepared for a call is entered by number, so
entering it twice means the same cells.  Operands are texts of quads or values of
cells: an address, or an address in parentheses for the cell that holds the
address.
-/
import QuadLang.Machine.Operator
import QuadLang.Table
import QuadLang.Text.Digit
import QuadLang.Types

namespace QuadLang

/-- A cell: a value and the type that it is read as. -/
structure Cell where
  value : Value
  type : Ty
deriving Repr

/-- A row of cells, some of them empty. -/
abbrev Frame := Array (Option Cell)

/-- What a cell is read as: its value as an integer or as a real, when its type
is one of these. -/
def Cell.read (c : Cell) : Except MachineFault Value :=
  match c.type with
  | .of .int => c.value.toInt.map .int
  | .of .float => c.value.toReal.map .real
  | _ => .ok c.value

/-- The place in a row that a number stands for; negative numbers count from the
end. -/
def rowIndex? (size : Nat) (i : Int) : Option Nat :=
  let k := if i < 0 then i + size else i
  if 0 ≤ k && k < size then some k.toNat else none

namespace Frame

def empty (size : Int) : Frame := Array.replicate size.toNat none

/-- The cell at a place; the place has to exist. -/
def get (f : Frame) (i : Int) : Except MachineFault (Option Cell) :=
  match rowIndex? f.size i with
  | some k => .ok ((f[k]?).join)
  | none => .error .badIndex

end Frame

/-- The bounds of the four ranges of a segment: the first addresses, and the
first address after the segment. -/
abbrev Bounds := List Int

namespace Bounds

def at_ (b : Bounds) (i : Nat) : Int := b.getD i 0

/-- The first address after a segment. -/
def stop (b : Bounds) : Int := b.at_ 4

def size (b : Bounds) : Int := b.stop - b.at_ 0

/-- The type that a segment gives to an address. -/
def typeOf (b : Bounds) (address : Int) : Scalar :=
  if address < b.at_ 1 then .int
  else if address < b.at_ 2 then .float
  else if address < b.at_ 3 then .char
  else .bool

end Bounds

/-- An argument that waits for a call: value, address and offset. -/
structure Argument where
  value : Value
  address : String
  offset : Int
deriving Repr

structure Machine where
  /-- Whether to print what is done. -/
  debug : Bool
  globalBounds : Bounds
  localBounds : Bounds
  tempBounds : Bounds
  constantBounds : Bounds
  globals : Frame
  constants : Frame
  /-- All frames for local and temporary cells. -/
  frames : Array Frame
  /-- The frames in use, the innermost first. -/
  locals : List Nat
  temps : List Nat
  localOffsets : List (List Int)
  tempOffsets : List (List Int)
  /-- The frames for the next call. -/
  nextLocals : Nat
  nextTemps : Nat
  /-- The cells that functions need: local and temporary ones by type. -/
  eras : Table (List Int × List Int)
  quads : Array (List String)
  /-- The number of the quad at work. -/
  place : Int
  calls : List Int
  returns : List (List Value)
  /-- The arguments of the calls in preparation. -/
  arguments : List (List Argument)
  /-- The rows and columns that the next quad works on. -/
  extents : List Int
  /-- The value that was assigned, read or printed last. -/
  lastValue : Option Value
  /-- The names that pasted operands can refer to. -/
  names : Table Value
  input : List String
  /-- What was printed, latest first. -/
  printed : List String

abbrev Exec (α : Type) := ExceptT MachineFault (StateM Machine) α

/-- A cell by the row it is in and its place there. -/
inductive Place where
  | global (i : Int)
  | local (i : Int)
  | temp (i : Int)
  | constant (i : Int)
deriving Repr, DecidableEq

/-- The place of an address in a compact frame: its distance from the beginning
of its range, and the offset of the range in the frame. -/
def localIndex (address : Int) (bounds : Bounds) (offsets : List Int) : Except MachineFault Int :=
  let below := bounds.dropLast.takeWhile fun b => b ≤ address
  match below.getLast? with
  | none => .error .noRange
  | some b =>
    match offsets[below.length - 1]? with
    | some offset => .ok (address - b + offset)
    | none => .error .badIndex

/-- The text between the parentheses of an operand that is a pointer: the address
of the cell that holds the address. -/
def pointerText? (s : String) : Option String :=
  match s.toList with
  | '(' :: rest =>
    let digits := rest.takeWhile Text.isDigit
    match rest.drop digits.length with
    | ',' :: ')' :: _ =>
      if digits.isEmpty then none else some (String.ofList (rest.take (rest.length - 2)))
    | _ => none
  | _ => none

/-- The pointer that an operand is, if it is one. -/
def pointer? : Value → Except MachineFault (Option String)
  | .text s => .ok (pointerText? s)
  | .int i => (Value.intText i).map fun _ => none
  | _ => .ok none

def offsetText (offset : Int) : String := if offset == 0 then "" else " + " ++ toString offset

/-- How many pointers can be followed in a row. -/
def pointerLimit : Nat := 900

namespace Machine

/-- The cell of an address of a segment with frames: the main program has its
whole range, calls have compact frames. -/
def frameIndex (stack : List Nat) (offsets : List (List Int)) (bounds : Bounds) (address : Int) :
    Except MachineFault Int :=
  if stack.length == 1 then .ok (address - bounds.at_ 0)
  else match offsets with
    | os :: _ => localIndex address bounds os
    | [] => .error .badIndex

def placeOf (m : Machine) (address : Int) : Except MachineFault Place :=
  if address < m.globalBounds.stop then .ok (.global (address - m.globalBounds.at_ 0))
  else if address < m.localBounds.stop then
    (frameIndex m.locals m.localOffsets m.localBounds address).map .local
  else if address < m.tempBounds.stop then
    (frameIndex m.temps m.tempOffsets m.tempBounds address).map .temp
  else .ok (.constant (address - m.constantBounds.at_ 0))

/-- The number of the innermost frame. -/
def innermost : List Nat → Except MachineFault Nat
  | n :: _ => .ok n
  | [] => .error .badIndex

def frame (m : Machine) (n : Nat) : Frame := (m.frames[n]?).getD #[]

def cellAt (m : Machine) : Place → Except MachineFault (Option Cell)
  | .global i => m.globals.get i
  | .local i => do (m.frame (← innermost m.locals)).get i
  | .temp i => do (m.frame (← innermost m.temps)).get i
  | .constant i => m.constants.get i

def putIn (m : Machine) (c : Cell) (stack : List Nat) (i : Int) : Machine × Option MachineFault :=
  match stack with
  | [] => (m, some .badIndex)
  | n :: _ =>
    match rowIndex? (m.frame n).size i with
    | some k => ({ m with frames := m.frames.modify n fun f => f.setIfInBounds k (some c) }, none)
    | none => (m, some .badStore)

/-- Store a cell at a place; the place has to exist. -/
def putAt (m : Machine) (c : Cell) : Place → Machine × Option MachineFault
  | .global i =>
    match rowIndex? m.globals.size i with
    | some k => ({ m with globals := m.globals.setIfInBounds k (some c) }, none)
    | none => (m, some .badStore)
  | .local i => m.putIn c m.locals i
  | .temp i => m.putIn c m.temps i
  | .constant i =>
    match rowIndex? m.constants.size i with
    | some k => ({ m with constants := m.constants.setIfInBounds k (some c) }, none)
    | none => (m, some .badStore)

/-- The type that the segment of an address gives to it. -/
def storeType (m : Machine) (address : Int) : Scalar :=
  if address < m.globalBounds.stop then m.globalBounds.typeOf address
  else if address < m.localBounds.stop then m.localBounds.typeOf address
  else m.tempBounds.typeOf address

def unreachable (operand : Value) (offset : Int) : MachineFault :=
  match operand.plain with
  | .ok s => .unreachable (s ++ offsetText offset)
  | .error f => f

def cellOf (m : Machine) (address offset : Int) : Except MachineFault (Option Cell) :=
  let refused := unreachable (.int address) offset
  if address < m.globalBounds.at_ 0 || address ≥ m.constantBounds.stop then .error refused
  else match (m.placeOf address).bind m.cellAt with
    | .ok c => .ok c
    | .error _ => .error refused

def direct (m : Machine) (operand : Value) (offset : Int) : Except MachineFault (Option Cell) :=
  match operand.toInt with
  | .ok i => m.cellOf (i + offset) offset
  | .error _ => .error (unreachable operand offset)

def valueOf (operand : Value) (offset : Int) (c : Except MachineFault (Option Cell)) :
    Except MachineFault Value := do
  match ← c with
  | some c => c.read
  | none => throw (.unassigned ((← operand.plain) ++ offsetText offset))

/-- The cell of an operand, at an offset from its address.  The first number
bounds the pointers that are followed. -/
def follow (m : Machine) : Nat → Value → Int → Except MachineFault (Option Cell)
  | 0, operand, offset => .error (unreachable operand offset)
  | n + 1, operand, offset =>
    match pointer? operand with
    | .error _ => .error (unreachable operand offset)
    | .ok none => m.direct operand offset
    | .ok (some p) =>
      match valueOf (.text p) 0 (m.direct (.text p) 0) with
      | .error _ => .error (unreachable operand offset)
      | .ok v =>
        match m.follow n v offset with
        | .ok c => .ok c
        | .error _ => .error (unreachable operand offset)

def cell (m : Machine) (operand : Value) (offset : Int) : Except MachineFault (Option Cell) :=
  m.follow pointerLimit operand offset

def value (m : Machine) (operand : Value) (offset : Int) : Except MachineFault Value :=
  valueOf operand offset (m.cell operand offset)

/-- Store a value at an address.  An address outside of variables and temporary
cells is refused: the refusal is the answer, and nothing changes. -/
def storeAt (m : Machine) (v : Value) (address offset : Int) :
    Machine × Except MachineFault (Option MachineFault) :=
  if address < m.globalBounds.at_ 0 || address ≥ m.tempBounds.stop then
    (m, (Value.intText address).map fun text => some (.invalidStore (text ++ offsetText offset)))
  else
    match m.placeOf address with
    | .error f => (m, .error f)
    | .ok place =>
      let type := m.storeType address
      match m.putAt { value := v, type := .of type } place with
      | (m, none) => (m, .ok none)
      | (m, some f) => (m, .error f)

/-- The address that an operand leads to when a value is stored, with the offset
that is still to be added; the last part says whether pointers were followed.
Through a pointer the offset counts from the pointer. -/
def target (m : Machine) : Nat → Value → Int → Except MachineFault (Int × Int × Bool)
  | 0, operand, offset => .error (unreachable operand offset)
  | n + 1, operand, offset => do
    match ← pointer? operand with
    | some p =>
      let (address, offset, _) ← m.target n (← m.value (.text p) offset) 0
      return (address, offset, true)
    | none => return (← operand.toInt, offset, false)

/-- Store a value where an operand says.  A refusal is the answer, unless a
pointer was followed. -/
def store (m : Machine) (v : Value) (operand : Value) (offset : Int) :
    Machine × Except MachineFault (Option MachineFault) :=
  match m.target pointerLimit operand offset with
  | .error f => (m, .error f)
  | .ok (address, offset, followed) =>
    match m.storeAt v (address + offset) offset with
    | (m, .ok refusal) => (m, .ok (if followed then none else refusal))
    | failed => failed

def typeVia (m : Machine) : Nat → Value → Except MachineFault Scalar
  | 0, operand => .error (unreachable operand 0)
  | n + 1, operand => do
    match ← pointer? operand with
    | some p => m.typeVia n (← m.value (.text p) 0)
    | none =>
      let address ← operand.toInt
      if address < m.globalBounds.at_ 0 || address ≥ m.localBounds.stop then
        throw (.prohibited address)
      else if address < m.globalBounds.stop then return m.globalBounds.typeOf address
      else return m.localBounds.typeOf address

def typeOf (m : Machine) (operand : Value) : Except MachineFault Scalar :=
  m.typeVia pointerLimit operand

/-- The type that the bounds of a segment give to the address of an operand; a
pointer is followed and has none. -/
def typeIn (m : Machine) (bounds : Bounds) (operand : Value) : Except MachineFault (Option Scalar) := do
  match ← pointer? operand with
  | some p =>
    let _ ← m.value (.text p) 0
    return none
  | none =>
    let below := fun (i : Nat) => Value.order .lt operand (.int (bounds.at_ i))
    if ← below 1 then return some .int
    else if ← below 2 then return some .float
    else if ← below 3 then return some .char
    else return some .bool

def width (m : Machine) : Except MachineFault Int :=
  match m.extents with
  | rows :: cols :: _ => .ok (rows * cols)
  | _ => .error .badExtent

/-- One of the extents; negative numbers count from the end. -/
def extent (m : Machine) (i : Int) : Except MachineFault Int :=
  match (rowIndex? m.extents.length i).bind fun k => m.extents[k]? with
  | some n => .ok n
  | none => .error .badExtent

def matrix (m : Machine) (operand : Value) (first : Int) : Except MachineFault (List (List Value)) := do
  let rows ← m.extent first
  let cols ← m.extent (first + 1)
  (List.range rows.toNat).mapM fun (i : Nat) => (List.range cols.toNat).mapM fun (j : Nat) =>
    m.value operand ((i : Int) * cols + (j : Int))

/-- The offsets of the types in a compact frame: how many cells come before. -/
def offsetsOf (counts : List Int) : List Int :=
  counts.dropLast.foldl (fun os n => os ++ [os.getLastD 0 + n]) [0]

def cellCount (counts : List Int) : Int := counts.foldr (· + ·) 0

def prepare (m : Machine) (function : String) : Except MachineFault Machine :=
  match m.eras.get? function with
  | none => .error (.noEra function)
  | some (locals, temps) =>
    .ok { m with
      frames := (m.frames.push (.empty (cellCount locals))).push (.empty (cellCount temps))
      nextLocals := m.frames.size
      nextTemps := m.frames.size + 1
      localOffsets := offsetsOf locals :: m.localOffsets
      tempOffsets := offsetsOf temps :: m.tempOffsets
      arguments := [] :: m.arguments }

/-- Enter the prepared frames, to come back to `place`. -/
def enter (m : Machine) (place : Int) : Machine :=
  { m with
    calls := place :: m.calls
    locals := m.nextLocals :: m.locals
    temps := m.nextTemps :: m.temps }

/-- Leave the innermost frames: the quad that entered them. -/
def leave (m : Machine) : Machine × Except MachineFault Int :=
  match m.locals with
  | [] => (m, .error .noFrame)
  | _ :: locals =>
    let m := { m with locals }
    match m.temps with
    | [] => (m, .error .noFrame)
    | _ :: temps =>
      let m := { m with temps }
      match m.localOffsets with
      | [] => (m, .error .noFrame)
      | _ :: localOffsets =>
        let m := { m with localOffsets }
        match m.tempOffsets with
        | [] => (m, .error .noFrame)
        | _ :: tempOffsets =>
          let m := { m with tempOffsets }
          match m.calls with
          | [] => (m, .error .popEmpty)
          | place :: calls => ({ m with calls }, .ok place)

end Machine

end QuadLang
