/-
What the grammar rules do.

Every rule of the two grammars names a step.  A step gets the values of the
symbols of its rule and the value of the symbol before it, changes the state of
the compilation and gives the value of the left side, if it has one.
-/
import QuadLang.Compile.Object

namespace QuadLang

/-- The steps of a compilation. -/
inductive Step where
  | skip
  | begin
  | finish
  | openTable
  | declare
  | reserve
  | setType
  | setVoid
  | give (word : String)
  | beginFunction
  | returnDims
  | size (place : Nat) (shown : Bool)
  | param
  | paramDims
  | markStart
  | endFunction
  | beginMain
  | assign
  | ret
  | read
  | printValue
  | printText
  | endIf
  | jumpIfFalse
  | orElse
  | iterator
  | loopStart
  | loopBound
  | loopEnd
  | beginLoop
  | endLoop
  | leave
  | operation (ops : List String)
  | pushOperator
  | matrixOperation
  | closeGroup
  | pushVariable
  | beginAccess
  | openIndex
  | closeIndex
  | endAccess
  | constant
  | callResult
  | callStatement
  | beginCall
  | argument
  | endCall
deriving Repr, DecidableEq

namespace Compile

/-- The text of a value; other values count as the empty text. -/
def wordOf : Option Literal → String
  | some (.text s) => s
  | _ => ""

/-- The number of a value; other values count as zero. -/
def numberOf : Option Literal → Int
  | some (.int i) => i
  | _ => 0

def typeOfLiteral : Literal → Ty
  | .int _ => .of .int
  | .real _ => .of .float
  | .text _ => .of .char
  | .truth _ => .of .bool

def scope : Compile String := return (← get).currentName.getD "None"

def takeArray (dims : List Int) : Compile Unit := do
  let _ ← take (·.takeRest (← scope) (← get).currentType (sizeOf dims))

/-- One more index of an array access, if the array has so many. -/
def openIndex : Compile Unit := do
  let (name, depth) ← popAccess
  let dims ← dimsOf name
  if depth + 1 > dims.length then throw (.tooManyIndexes (name.getD "None") dims.length depth)
  modify fun c => { c with accesses := (name, depth + 1) :: c.accesses }
  pushOperator "("

def beginCall (name : String) : Compile Unit := do
  if ← functionExists name then
    addEra name
    modify fun c => { c with calls := name :: c.calls }
    pushOperator "("
  else throw (.unknownFunction name)

def addNextArgument : Compile Unit := do
  let p ← paramOf (← topCall)
  addArgument p (← get).paramCount
  modify fun c => { c with paramCount := c.paramCount + 1 }

def endCall : Compile Unit := do
  let name ← topCall
  let f ← functionOf (some name)
  if (← get).paramCount == f.params.length then
    modify fun c => { c with paramCount := 0 }
    addGoSub f.start
    let _ ← popOperator
  else throw (.wrongArity name)

def perform (before : Option Literal) (args : List (Option Literal)) :
    Step → Compile (Option Literal)
  | .skip => return none
  | .begin => do
    say fun _ => "\n|==|==|==|==|==|==|==|==| START DEBUG LOG |==|==|==|==|==|==|==|==|\n"
    addFunction "main"
    setGlobal
    addMain
    return none
  | .finish => do addEnd; build; return none
  | .openTable => do openTable; return none
  | .declare => do
    let name := wordOf (args.headD none)
    if ← isAvailable name then
      let address ← take (·.takeOne (← scope) (← get).currentType)
      addVariable name address
      setNamed (some name)
    else throw (.variableExists name)
    return none
  | .reserve => do
    let dims := args.map numberOf
    setDims dims
    takeArray dims
    return some (.int (sizeOf dims))
  | .setType => do
    let word := args.headD none
    setType (.ofName (wordOf word))
    return word
  | .setVoid => do setType .void; return none
  | .give word => return some (.text word)
  | .beginFunction => do
    let name := wordOf before
    if ← functionExists name then throw (.functionExists name)
    addFunction name
    openTable
    return none
  | .returnDims => do
    let dims := args.map numberOf
    changeCurrent fun f => { f with returnDims := dims }
    return none
  | .size i shown => do
    let n := numberOf (args.getD i none)
    if n ≤ 0 then throw (.badSize (if shown then some n else none))
    return some (.int n)
  | .param => do
    let name := wordOf before
    if ← isAvailable name then
      setNamed (some name)
      let address ← take (·.takeOne (← scope) (← get).currentType)
      addVariable name address
      addParam address
    else throw (.paramExists name)
    return none
  | .paramDims => do
    let dims := args.map numberOf
    setParamDims dims
    setDims dims
    takeArray dims
    return none
  | .markStart => do
    let n ← quadCount
    changeCurrent fun f => { f with start := some n }
    return none
  | .endFunction => do addFunctionEnd; closeTable; return none
  | .beginMain => do completeMain; return none
  | .assign => do addAssign; return none
  | .ret => do addReturn; return none
  | .read => do addRead; return none
  | .printValue => do addPrint; return none
  | .printText => do addPrintText (wordOf (args.headD none)); return none
  | .endIf => do completeIf; return none
  | .jumpIfFalse => do addJumpIfFalse; return none
  | .orElse => do addElse; return none
  | .iterator => do addIterator (wordOf before); return none
  | .loopStart => do addLoopStart; return none
  | .loopBound => do addLoopBound; return none
  | .loopEnd => do addLoopEnd; return none
  | .beginLoop => do beginLoop; return none
  | .endLoop => do completeLoop; return none
  | .leave => do addBreak; return none
  | .operation ops => do addOperation ops; return none
  | .pushOperator => do pushOperator (wordOf before); return none
  | .matrixOperation => do addMatrixOperation (wordOf before); return none
  | .closeGroup => do let _ ← popOperator; return none
  | .pushVariable => do
    let v ← variableOf (wordOf (args.headD none))
    setNamed (some v.name)
    pushVariable v
    return none
  | .beginAccess => do
    modify fun c => { c with accesses := (c.named, 0) :: c.accesses }
    return none
  | .openIndex => do openIndex; return none
  | .closeIndex => do addIndex; return none
  | .endAccess => do addElement; return none
  | .constant => do
    match args.headD none with
    | some value => pushConstant (← constant value (typeOfLiteral value))
    | none => return none
    return none
  | .callResult => do addCallResult; return none
  | .callStatement => do
    let name ← popCall
    if (← functionOf (some name)).returnType.name != "void" then throw (.valueAsStatement name)
    return none
  | .beginCall => do beginCall (wordOf before); return none
  | .argument => do addNextArgument; return none
  | .endCall => do endCall; return none

end Compile

end QuadLang
