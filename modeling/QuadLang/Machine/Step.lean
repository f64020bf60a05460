/-
Running quads.

`Machine.step` does one quad.  Most quads work on all cells of an array when a
`MAT` quad has set its extents right before; the extents are those of one cell
again after every other quad, except after jumps.

Design notes: what is done is told when debugging.  The texts are made in any
case, so a number that is too long to be written stops the run whether or not it
is shown.
-/
import QuadLang.Machine.Expression
import QuadLang.Machine.Matrix
import QuadLang.Machine.Object

namespace QuadLang

inductive Flow where
  /-- After the quad of the given number, with the extents of one cell. -/
  | after (place : Int)
  /-- After the quad of the given number, with the extents as they are. -/
  | keep (place : Int)
  /-- At the quad of the given number, with the extents as they are. -/
  | jump (place : Int)
  | stop
deriving Repr, DecidableEq

namespace Exec

/-- A part of the state that may be missing. -/
def ofExcept {α : Type} (f : Machine → Except MachineFault α) : Exec α := do
  match f (← get) with
  | .ok a => return a
  | .error e => throw e

def print (s : String) : Exec Unit := modify fun m => { m with printed := s :: m.printed }

/-- Tell what is done, when debugging. -/
def say (place : Int) (message : String) : Exec Unit := do
  if (← get).debug then print (debugLine (toString place) message)

def field (q : List String) (i : Nat) : Exec String :=
  match q[i]? with
  | some s => return s
  | none => throw .badIndex

def number (q : List String) (i : Nat) : Exec Int := do
  match (Value.text (← field q i)).toInt with
  | .ok n => return n
  | .error e => throw e

def textOf (v : Value) : Exec String := ofExcept fun _ => v.plain

def value (operand : String) (offset : Int) : Exec Value :=
  ofExcept fun m => m.value (.text operand) offset

def store (v : Value) (operand : String) (offset : Int) : Exec Unit := fun m =>
  match m.store v (.text operand) offset with
  | (m, .ok _) => (.ok (), m)
  | (m, .error f) => (.error f, m)

/-- Do something for every cell that a quad works on. -/
def forCells (act : Int → Exec Unit) : Exec Unit := do
  let n ← ofExcept Machine.width
  (List.range n.toNat).forM fun i => act (i : Int)

def storeAll (vs : List Value) (q : List String) : Exec Unit := do
  vs.zipIdx.forM fun (v, i) => do store v (← field q 3) (i : Int)

/-- The addresses of a row of cells, in a message. -/
def rangeText (q : List String) (count : Int) : Exec String := do
  let first ← field q 3
  return "(" ++ first ++ " - " ++ toString ((← number q 3) + count - 1) ++ ")"

def indexName : String := "i"

def operate (place : Int) (q : List String) (op : Operator) (word : String) : Exec Unit :=
  forCells fun i => do
    let left ← value (← field q 1) i
    let right ← value (← field q 2) i
    modify fun m => { m with names := m.names.put indexName (.int i) }
    let result ← ofExcept fun m => paste m.names op left right
    let target ← field q 3
    store result target i
    let shown ← textOf result
    say place ((← textOf left) ++ " " ++ word ++ " " ++ (← textOf right) ++ " = " ++ shown ++ " -> (" ++
      target ++ offsetText i ++ ")")

def assign (place : Int) (q : List String) : Exec Unit :=
  forCells fun i => do
    let v ← value (← field q 1) i
    modify fun m => { m with lastValue := some v }
    let target ← field q 3
    store v target i
    say place ((← textOf v) ++ " -> (" ++ target ++ offsetText i ++ ")")

def matrix (q : List String) (i : Nat) (first : Int) : Exec Rows := do
  let operand ← field q i
  ofExcept fun m => m.matrix (.text operand) first

/-- The first two extents, as far as they are not negative. -/
def extents : Exec (Nat × Nat) := do
  return ((← ofExcept (Machine.extent · 0)).toNat, (← ofExcept (Machine.extent · 1)).toNat)

def determinant (place : Int) (q : List String) : Exec Unit := do
  let rows ← matrix q 1 0
  let (r, c) ← extents
  let reals ← ofExcept fun _ => Rows.reals r c rows
  let target ← field q 3
  store (.real (Elimination.determinant reals)) target 0
  say place ("Stored determinant value -> (" ++ target ++ ")")

def transpose (place : Int) (q : List String) : Exec Unit := do
  let flat := (Rows.transpose (← matrix q 1 0)).flatten
  storeAll flat q
  say place ("Transposed matrix -> " ++ (← rangeText q flat.length))

def storeInverse (place : Int) (q : List String) (rows : Rows) : Exec Unit := do
  let (r, c) ← extents
  let reals ← ofExcept fun _ => Rows.reals r c rows
  match Elimination.inverse reals with
  | none => throw .notSquare
  | some inverse =>
    let flat := inverse.flatten
    storeAll (flat.map .real) q
    say place ("Inverted matrix -> " ++ (← rangeText q flat.length))

/-- An inverse matrix; whatever fails, the matrix has none. -/
def invert (place : Int) (q : List String) : Exec Unit := do
  let rows ← matrix q 1 0
  let operand ← field q 1
  fun m => match (storeInverse place q rows).run m with
    | (.ok (), m) => (.ok (), m)
    | (.error _, m) => (.error (.notInverted operand), m)

def multiply (place : Int) (q : List String) : Exec Unit := do
  let left ← matrix q 1 0
  let right ← matrix q 2 1
  let (m, n) ← extents
  let p := (← ofExcept (Machine.extent · 2)).toNat
  let flat := (← ofExcept fun _ => Rows.product m n p left right).flatten
  storeAll flat q
  say place ("Dot product -> " ++ (← rangeText q flat.length))

def setExtents (place : Int) (q : List String) : Exec Unit := do
  let rows ← number q 1
  let cols ← number q 2
  modify fun m => { m with extents := [rows, cols] }
  say place ("Preparing for matrix of size [" ++ toString rows ++ "][" ++ toString cols ++ "]")

def setProductExtents (place : Int) (q : List String) : Exec Unit := do
  let m ← number q 1
  let n ← number q 2
  let p ← number q 3
  modify fun s => { s with
    names := ((s.names.put "m" (.int m)).put "n" (.int n)).put "p" (.int p)
    extents := [m, n, p] }
  say place ("Preparing for dot product " ++ toString m ++ "x" ++ toString n ++ " · " ++ toString n ++
    "x" ++ toString p)

def goTo (place : Int) (q : List String) : Exec Flow := do
  say place ("Jump -> " ++ (← field q 3))
  return .jump (← number q 3)

/-- Whether all of some cells count as true; the rest is not looked at after the
first that does not. -/
def allTrue (operand : Exec String) : List Nat → Exec Bool
  | [] => return true
  | i :: rest => do
    if (← value (← operand) (i : Int)).truthy then allTrue operand rest else return false

/-- A jump when a cell of the condition counts as false. -/
def goToIfFalse (place : Int) (q : List String) : Exec Flow := do
  let n ← ofExcept Machine.width
  if ← allTrue (field q 1) (List.range n.toNat) then
    say place "Denied jump because true"
    return .after place
  else
    say place ("Allowed jump -> " ++ (← field q 3))
    return .jump (← number q 3)

def quotedText? (s : String) : Option String :=
  match s.toList with
  | '"' :: rest => if rest.contains '"' then some (String.ofList rest.dropLast) else none
  | _ => none

def printField (place : Int) (q : List String) : Exec Unit := do
  let operand ← field q 3
  match quotedText? operand with
  | some s =>
    say place ("Printing string: " ++ s)
    print (s ++ "\n")
  | none =>
    let n ← ofExcept Machine.width
    if n == 1 then
      match (← get).lastValue with
      | none => throw .noValue
      | some last =>
        say place ("Printing value: (" ++ operand ++ ") -> " ++ (← textOf last))
        let v ← value operand 0
        modify fun m => { m with lastValue := some v }
        print ((← textOf v) ++ "\n")
    else
      say place ("Printing array/matrix: " ++ (← rangeText q n))
      let rows ← matrix q 3 0
      let shown : Value := match rows with
        | [row] => .list row
        | rows => .list (rows.map .list)
      print ((← textOf shown) ++ "\n")

/-- What a line of input is for a type, if it is valid; a truth value cannot be
read. -/
def valueOfLine? (type : Scalar) (line : String) : Option Value :=
  match type with
  | .int => match (Value.text line).toInt with
    | .ok i => some (.int i)
    | .error _ => none
  | .float => match (Value.text line).toReal with
    | .ok x => some (.real x)
    | .error _ => none
  | .char => (line.toList.head?).map fun c => .text (String.ofList [c])
  | .bool => none

def prompt : String := "> "

/-- The answer to a line that is not valid. -/
def retry : String := "! Invalid type! Try again...\n"

/-- Read lines up to the first that is valid: what is printed, latest first, the
value and the lines that are left. -/
def readValue (type : Scalar) : List String → List String → List String × Option (Value × List String)
  | printed, [] => (prompt :: printed, none)
  | printed, line :: rest =>
    match valueOfLine? type line with
    | some v => (prompt :: printed, some (v, rest))
    | none => readValue type (retry :: prompt :: printed) rest

def readCell (type : Scalar) : Exec Value := fun m =>
  match readValue type m.printed m.input with
  | (printed, none) => (.error .endOfInput, { m with printed, input := [] })
  | (printed, some (v, input)) => (.ok v, { m with printed, input, lastValue := some v })

def readField (place : Int) (q : List String) : Exec Unit := do
  let target ← field q 3
  let type ← ofExcept fun m => m.typeOf (.text target)
  forCells fun i => do
    say place ("Requesting input for (" ++ target ++ offsetText i ++ "), type: " ++ type.name ++ "...")
    store (← readCell type) target i

def verify (place : Int) (q : List String) : Exec Unit := do
  let index ← value (← field q 1) 0
  let limit ← number q 3
  say place ("Verifying that " ++ (← textOf index) ++ " < " ++ toString limit ++ "...")
  if ← ofExcept fun _ => Value.order .lt index (.int 0) then
    throw (.outside (← textOf index) limit)
  if ← ofExcept fun _ => Value.order .ge index (.int limit) then
    throw (.outside (← textOf index) limit)

/-- Add the address of an array to an offset. -/
def makePointer (place : Int) (q : List String) : Exec Unit := do
  let offset ← value (← field q 1) 0
  let base ← number q 2
  let target ← field q 3
  say place ("Creating pointer " ++ (← textOf offset) ++ " + " ++ toString base ++ " -> ((" ++ target ++
    "))")
  store (← ofExcept fun _ => Operator.apply .add offset (.int base)) target 0

def prepare (place : Int) (q : List String) : Exec Unit := do
  let function ← field q 3
  set (← ofExcept fun m => m.prepare function)
  say place ("Preparing ERA for function -> " ++ function)

def addArgument (a : Exec Argument) : Exec Unit := do
  match (← get).arguments with
  | [] => throw .peekEmpty
  | mine :: rest =>
    let a ← a
    modify fun m => { m with arguments := (mine ++ [a]) :: rest }

def passArgument (place : Int) (q : List String) : Exec Unit :=
  forCells fun i => do
    let operand ← field q 1
    let v ← value operand i
    addArgument do return { value := v, address := ← field q 2, offset := i }
    say place ("Assigning value from (" ++ operand ++ offsetText i ++ ") as parameter #" ++
      (← field q 3))

def bindArgument (a : Argument) : Exec Unit := do
  modify fun m => { m with
    names := m.names.put "p" (.tuple [a.value, .text a.address, .int a.offset]) }
  store a.value a.address a.offset

def goSub (place : Int) (q : List String) : Exec Flow := do
  modify fun m => m.enter place
  match (← get).arguments with
  | [] => throw .popEmpty
  | mine :: rest =>
    modify fun m => { m with arguments := rest }
    mine.forM bindArgument
    let start ← number q 3
    say place ("Jump to function: " ++ toString place ++ " -> " ++ toString start)
    return .jump start

/-- The quad after the one that entered the function. -/
def comeback : Exec Int := do
  match (← get).calls with
  | [] => throw .peekEmpty
  | place :: _ => return place + 1

def leave : Exec Int := fun m => let (m, r) := m.leave; (r, m)

def returnValues (place : Int) (q : List String) : Exec Flow := do
  let n ← ofExcept Machine.width
  let vs ← (List.range n.toNat).mapM fun (i : Nat) => do
    let source ← field q 3
    say place ("Return found! Assigning value -> (" ++ source ++ offsetText (i : Int) ++ ")")
    value source (i : Int)
  modify fun m => { m with returns := vs :: m.returns }
  say place ("Popping back! " ++ toString place ++ " -> " ++ toString (← comeback))
  return .after (← leave)

def takeReturned (place : Int) (q : List String) : Exec Unit := do
  match (← get).returns with
  | [] => throw .popEmpty
  | vs :: rest =>
    modify fun m => { m with returns := rest }
    vs.zipIdx.forM fun (v, i) => do
      let target ← field q 3
      store v target (i : Int)
      match (← get).lastValue with
      | none => throw .noValue
      | some last =>
        say place ("Assigned return value of " ++ (← textOf last) ++ " to address (" ++ target ++
          offsetText (i : Int) ++ ")")

def endFunction (place : Int) : Exec Flow := do
  say place ("End of function found! Popping back! " ++ toString place ++ " -> " ++
    toString (← comeback))
  return .after (← leave)

def perform (place : Int) (q : List String) : Exec Flow := do
  let word := q.headD ""
  match Operator.ofWord? word with
  | some op => operate place q op word; return .after place
  | none =>
    match word with
    | "=" => assign place q; return .after place
    | "$" => determinant place q; return .after place
    | "!" => transpose place q; return .after place
    | "?" => invert place q; return .after place
    | "MAT" => setExtents place q; return .keep place
    | "·" => multiply place q; return .after place
    | "MAT·" => setProductExtents place q; return .keep place
    | "GoTo" => goTo place q
    | "GoToF" => goToIfFalse place q
    | "PRINT" => printField place q; return .after place
    | "READ" => readField place q; return .after place
    | "VERIFY" => verify place q; return .after place
    | "+->" => makePointer place q; return .after place
    | "ERA" => prepare place q; return .after place
    | "PARAM" => passArgument place q; return .after place
    | "GoSub" => goSub place q
    | "RETURN" => returnValues place q
    | "=>" => takeReturned place q; return .after place
    | "EndFunc" => endFunction place
    | "END" => say place "HONK! (BYE!)"; return .stop
    | _ =>
      say place ("! -> [" ++ Text.join ", " (q.map Text.quote) ++ "]")
      return .after place

/-- Do one quad; the answer is whether the run goes on. -/
def step : Exec Bool := do
  let m ← get
  match (rowIndex? m.quads.size m.place).bind fun i => m.quads[i]? with
  | none => throw .peekEmpty
  | some q =>
    match ← perform m.place q with
    | .stop => return false
    | .after place => modify fun m => { m with place := place + 1, extents := [1, 1] }; return true
    | .keep place => modify fun m => { m with place := place + 1 }; return true
    | .jump place => modify fun m => { m with place }; return true

end Exec

inductive Ending where
  | finished
  | failed (fault : MachineFault)
  /-- There are quads left to do. -/
  | unfinished
deriving Repr, DecidableEq

/-- Do at most `n` quads. -/
def Machine.run : Nat → Machine → Machine × Ending
  | 0, m => (m, .unfinished)
  | n + 1, m =>
    match Exec.step.run m with
    | (.ok true, m) => Machine.run n m
    | (.ok false, m) => (m, .finished)
    | (.error f, m) => (m, .failed f)

end QuadLang
