/-
Making quads.

Each function here makes the quads of one construct: it takes operands and
operators from the stacks, checks types and dimensions, takes temporary cells
and appends quads.  Jumps forward are left open and completed later.
-/
import QuadLang.Compile.Symbols

namespace QuadLang.Compile

/-- The four fields of a quad in one line; a shorter row has none. -/
def quadLine? : Quad → Option String
  | op :: a :: b :: r :: _ =>
    some (op.shown ++ "\t" ++ a.shown ++ "\t" ++ b.shown ++ "\t" ++ r.shown)
  | _ => none

def addQuad (q : Quad) : Compile Unit := do
  if (← get).debug then
    match quadLine? q with
    | some line => print (toString (← quadCount) ++ ":\t" ++ line)
    | none => throw .shortQuad
  modify fun c => { c with quads := c.quads.push q }

/-- Append a quad of an operator and up to three fields. -/
def emit (op : String) (a b r : Field) : Compile Unit := addQuad [.text op, a, b, r]

/-- The place in the list of quads that a number stands for; negative numbers
count from the end. -/
def quadIndex? (size : Nat) (n : Int) : Option Nat :=
  let i := if n < 0 then n + size else n
  if 0 ≤ i && i < size then some i.toNat else none

def complete (index target : Int) : Compile Unit := do
  let c ← get
  match (quadIndex? c.quads.size index).bind fun i => c.quads[i]?.map fun q => (i, q) with
  | none => throw .peekEmpty
  | some (i, op :: a :: b :: _ :: rest) =>
    set { c with quads := c.quads.setIfInBounds i (op :: a :: b :: .number target :: rest) }
    remark fun _ =>
      "! Completed quad #" ++ toString index ++ " with jump to " ++ toString target
  | some _ => throw .shortStore

def completeHere (index : Int) : Compile Unit := do complete index (← quadCount)

def pushVariable (v : Variable) : Compile Unit :=
  pushOperand { name := .text v.name, address := .cell v.address, type := v.type, dims := v.dims }

def pushConstant (k : Constant) : Compile Unit :=
  pushOperand { name := k.value, address := .cell k.address, type := k.type, dims := [] }

def pushTemp (address : Address) (type : Ty) (dims : List Int) : Compile Unit := do
  let n := (← get).tempCount
  pushOperand { name := .text ("t" ++ toString n), address, type, dims }

def countTemp : Compile Unit := modify fun c => { c with tempCount := c.tempCount + 1 }

def addMain : Compile Unit := do
  emit "GoTo" .none .none .none
  pushJump 0

/-- The main part begins here. -/
def completeMain : Compile Unit := do
  completeHere (← popJump)
  say fun _ => "--- main"

/-- Whether operands of these dimensions can be combined cell by cell. -/
def sameShape : List Int → List Int → Bool
  | [], [] => true
  | [a], [b] => a == b
  | [a, b], [c, d] => a == c && b == d
  | _, _ => false

/-- Announce that the next quad works on all cells of an array. -/
def addShape (dims : List Int) : Compile Unit := do
  let (rows, cols) ← match dims with
    | [n] => pure (1, n)
    | [m, n] => pure (m, n)
    | _ => throw .noShape
  remark fun _ => "! Preparing for matrix of [" ++ toString rows ++ "][" ++ toString cols ++ "]"
  emit "MAT" (.number rows) (.number cols) .none

/-- Announce an array, if the operand is one. -/
def addShapeOf (dims : List Int) : Compile Unit := do
  if !dims.isEmpty then addShape dims

/-- The type of the result of an operator; the operands have to fit. -/
def resultType (left right : Operand) (op : String) : Compile Scalar := do
  match left.type.combine right.type op with
  | some t => return t
  | none => throw (.typeMismatch left.type.name op right.type.name)

/-- The operands have to have the same dimensions. -/
def checkShapes (left right : Operand) : Compile Unit := do
  if !sameShape left.dims right.dims then throw (.dimsMismatch left.dims right.dims)

def addAssign : Compile Unit := do
  let right ← popOperand
  let left ← popOperand
  let op ← popOperator
  let _ ← resultType left right op
  checkShapes left right
  addShapeOf left.dims
  emit op (.address right.address) .none (.address left.address)

def addDot : Compile Unit := do
  let right ← popOperand
  let left ← popOperand
  let op ← popOperator
  let type ← resultType left right op
  match left.dims, right.dims with
  | [m, n], [n', p] =>
    if n != n' then throw (.dotDims left.dims right.dims)
    let result ← take (·.takeOne "temp" (.of type))
    let _ ← take (·.takeRest "temp" (.of type) (m * p))
    remark fun _ =>
      "! Preparing dot product for dims " ++ shownInts left.dims ++ " · " ++ shownInts right.dims
    emit "MAT·" (.number m) (.number n) (.number p)
    emit "·" (.address left.address) (.address right.address) (.number result)
    pushTemp (.cell result) (.of type) [m, p]
    countTemp
  | _, _ => throw (.dotDims left.dims right.dims)

def remarkTemp (type : Scalar) (result : Int) : Compile Unit := do
  let n := (← get).tempCount
  remark fun _ => "> TMP: t" ++ toString n ++ " - " ++ type.name ++ " -> " ++ toString result

/-- An operation between the two top operands, when the top operator is one of
`ops`. -/
def addOperation (ops : List String) : Compile Unit := do
  match (← get).operators with
  | [] => return
  | op :: _ =>
    if !ops.contains op then return
    if op == "." then addDot
    else
      let right ← popOperand
      let left ← popOperand
      let op ← popOperator
      let type ← resultType left right op
      checkShapes left right
      addShapeOf left.dims
      let result ← take (·.takeOne "temp" (.of type))
      emit op (.address left.address) (.address right.address) (.number result)
      pushTemp (.cell result) (.of type) left.dims
      remarkTemp type result
      countTemp

def addMatrixOperation (op : String) : Compile Unit := do
  let mat ← popOperand
  match mat.dims with
  | [rows, cols] =>
    match mat.type.apply op with
    | none => throw (.operandMismatch mat.type.name op)
    | some type =>
      if (op == "$" || op == "?") && rows != cols then throw (.notSquare mat.name.plainText op)
      let dims := if op == "$" then [] else if op == "!" then [cols, rows] else mat.dims
      let result ← take (·.takeOne "temp" (.of type))
      remarkTemp type result
      if !dims.isEmpty then
        let _ ← take (·.takeRest "temp" (.of type) (rows * cols))
        let n := (← get).tempCount
        remark fun _ => ">> TMP: t" ++ toString n ++ " - " ++ type.name ++ shownInts dims ++ " -> " ++
          toString result ++ " - " ++ toString (result + rows * cols - 1)
      addShape mat.dims
      emit op (.address mat.address) .none (.number result)
      pushTemp (.cell result) (.of type) dims
      countTemp
  | _ => throw (.notMatrix mat.name.plainText op)

/-- The cell or cells for the result of the function at work, taken at its first
return. -/
def returnAddress (type : Ty) (dims : List Int) : Compile Int := do
  match (← current).returnAddress with
  | some a => return a
  | none =>
    let scope := (← get).currentName.getD "None"
    let address ← take (·.takeOne scope type)
    changeCurrent fun f => { f with returnAddress := some address }
    if !dims.isEmpty then
      let size := sizeOf dims
      let _ ← take (·.takeRest scope type size)
      remark fun _ => "! Set the function's return address to (" ++ toString address ++ " - " ++
        toString (address + size - 1) ++ ")"
    else remark fun _ => "! Set the function's return address to (" ++ toString address ++ ")"
    return address

def addReturn : Compile Unit := do
  let value ← popOperand
  let f ← current
  if (← get).currentName == (← get).globalName then throw .returnInMain
  if f.returnType == .void then throw .returnInVoid
  if value.type.name != f.returnType.name then
    throw (.returnType value.type.name f.returnType.name)
  if value.dims != f.returnDims then throw (.returnDims value.dims f.returnDims)
  let address ← returnAddress f.returnType f.returnDims
  addShapeOf f.returnDims
  emit "=" (.address value.address) .none (.number address)
  addShapeOf f.returnDims
  emit "RETURN" .none .none (.number address)
  modify fun c => { c with returnCount := c.returnCount + 1 }

def addRead : Compile Unit := do
  let v ← popOperand
  addShapeOf v.dims
  emit "READ" .none .none (.address v.address)

def addPrintText (s : String) : Compile Unit := emit "PRINT" .none .none (.text s)

def addPrint : Compile Unit := do
  let v ← popOperand
  addShapeOf v.dims
  emit "PRINT" .none .none (.address v.address)

def addJumpIfFalse : Compile Unit := do
  let v ← popOperand
  addShapeOf v.dims
  if v.type.name == "bool" then
    emit "GoToF" (.address v.address) .none .none
    pushJump ((← quadCount) - 1)
  else throw (.conditionType v.type.name)

def addElse : Compile Unit := do
  emit "GoTo" .none .none .none
  let falseJump ← popJump
  pushJump ((← quadCount) - 1)
  completeHere falseJump

def completeIf : Compile Unit := do completeHere (← popJump)

def beginLoop : Compile Unit := do
  pushJump (← quadCount)
  modify fun c => { c with breaks := [] :: c.breaks }

/-- A loop ends here: go back to its condition, and complete its exits. -/
def completeLoop : Compile Unit := do
  let exit ← popJump
  let again ← popJump
  emit "GoTo" .none .none (.number again)
  completeHere exit
  for b in ← popBreaks do completeHere b

def addBreak : Compile Unit := do
  if (← get).breaks.isEmpty then throw .breakOutside
  emit "GoTo" .none .none .none
  let here := (← quadCount) - 1
  modify fun c => { c with breaks := match c.breaks with
    | inner :: rest => (inner ++ [here]) :: rest
    | [] => [] }

/-- The iterator of a counting loop: a temporary cell under its name. -/
def addIterator (name : String) : Compile Unit := do
  setType (.of .int)
  let address ← take (·.takeOne "temp" (.of .int))
  addVariable name address
  let v ← declared name (.of .int)
  pushVariable v
  pushVariable v
  pushVariable v

def addLoopStart : Compile Unit := do
  pushOperator "="
  addAssign
  beginLoop

def addLoopBound : Compile Unit := do
  pushOperator "<="
  addOperation ["<="]
  addJumpIfFalse

def topOperand : Compile Operand := do
  match (← get).operands with
  | o :: _ => return o
  | [] => throw .peekEmpty

def addLoopEnd : Compile Unit := do
  let one ← constant (.int 1) (.of .int)
  pushOperand (← topOperand)
  pushOperand (← topOperand)
  pushConstant one
  pushOperator "="
  pushOperator "+"
  addOperation ["+"]
  addAssign
  completeLoop
  let _ ← popOperand

/-- An entry of a list by a number that counts from the end when negative. -/
def entry (xs : List Int) (i : Int) : Compile Int :=
  match (quadIndex? xs.length i).bind fun k => xs[k]? with
  | some x => return x
  | none => throw .noDimension

/-- One index of an array access: check it and add it to the offset. -/
def addIndex : Compile Unit := do
  let v ← topOperand
  if !v.dims.isEmpty then throw (.indexDims v.address v.dims)
  match (← get).accesses with
  | [] => throw .peekEmpty
  | (name, depth) :: _ =>
    let dims ← dimsOf name
    emit "VERIFY" (.address v.address) .none (.number (← entry dims (depth - 1)))
    if (dims.length : Int) - depth == 1 then
      let cols ← constant (.int (← entry dims 1)) (.of .int)
      pushConstant cols
      pushOperator "*"
      addOperation ["*"]
    else if dims.length == 2 then
      pushOperator "+"
      addOperation ["+"]
    let _ ← popOperator

/-- The end of an array access: add the offset to the address of the array. -/
def addElement : Compile Unit := do
  let (_, depth) ← popAccess
  let offset ← popOperand
  let arr ← popOperand
  let result ← take (·.takeOne "temp" arr.type)
  emit "+->" (.address offset.address) (.address arr.address) (.number result)
  let rest := if depth < 0 then arr.dims.drop (arr.dims.length - (-depth).toNat)
    else arr.dims.drop depth.toNat
  pushTemp (.pointer result) arr.type rest
  let n := (← get).tempCount
  remark fun _ =>
    "> PTR: t" ++ toString n ++ " - " ++ arr.type.name ++ " -> (" ++ toString result ++ ")"
  countTemp

def addEra (function : String) : Compile Unit := emit "ERA" .none .none (.text function)

def addArgument (p : Param) (k : Int) : Compile Unit := do
  let v ← popOperand
  if v.type.name != p.type.name then throw (.paramType v.type.name p.type.name)
  if v.dims != p.dims then throw (.paramDims v.dims p.dims)
  addShapeOf v.dims
  emit "PARAM" (.address v.address) (.number p.address) (.number k)

def addGoSub (start : Option Int) : Compile Unit := emit "GoSub" .none .none (Field.number? start)

/-- Begin counting anew for the next function. -/
def resetCounters : Compile Unit :=
  modify fun c => { c with tempCount := 0, returnCount := 0, space := c.space.resetLocals }

def addFunctionEnd : Compile Unit := do
  if (← get).returnCount == 0 then
    if (← current).returnType.name != "void" then throw .missingReturn
  let (locals, temps) := (← get).space.era
  changeCurrent fun f => { f with era := [locals.toList, temps.toList] }
  resetCounters
  emit "EndFunc" .none .none .none

def addCallResult : Compile Unit := do
  let name ← popCall
  let f ← functionOf (some name)
  if f.returnType.name == "void" then throw (.voidAsValue name)
  let result ← take (·.takeOne "temp" f.returnType)
  if !f.returnDims.isEmpty then
    let _ ← take (·.takeRest "temp" f.returnType (sizeOf f.returnDims))
    addShape f.returnDims
  emit "=>" .none .none (.number result)
  pushTemp (.cell result) f.returnType f.returnDims
  let n := (← get).tempCount
  remark fun _ =>
    "> RET: t" ++ toString n ++ " - " ++ f.returnType.name ++ " -> " ++ toString result ++
      if f.returnDims.isEmpty then "" else " - " ++ toString (result + sizeOf f.returnDims - 1)
  countTemp

def addEnd : Compile Unit := emit "END" .none .none .none

end QuadLang.Compile
