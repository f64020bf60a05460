/-
Functions, variables and constants of a compilation.

Variables are looked up in the function at work first and then among the global
ones.  The table of a function exists from its head to its end; that of the main
program only when it declares variables.
-/
import QuadLang.Compile.State

namespace QuadLang.Compile

def functionOf (name : Option String) : Compile Function := do
  match name.bind (← get).functions.get? with
  | some f => return f
  | none => throw (.noFunction name)

def current : Compile Function := do functionOf (← get).currentName

def changeFunction (name : Option String) (change : Function → Function) : Compile Unit := do
  let f ← functionOf name
  modify fun c => { c with functions := c.functions.put (name.getD "") (change f) }

def changeCurrent (change : Function → Function) : Compile Unit := do
  changeFunction (← get).currentName change

/-- The variables of a function, when it has a table. -/
def tableOf (name : Option String) : Compile (Table Variable) := do
  match (← functionOf name).declared with
  | some t => return t
  | none => throw .noTable

def findVariable? (name : String) : Compile (Option Variable) := do
  match (← tableOf (← get).currentName).get? name with
  | some v => return some v
  | none => return (← tableOf (← get).globalName).get? name

def variableOf (name : String) : Compile Variable := do
  match ← findVariable? name with
  | some v => return v
  | none => throw (.unknownVariable name)

def addressOf? (name : String) : Compile (Option Int) := do
  let c ← get
  match (variableOf name).run c with
  | (.ok v, _) => return some v.address
  | (.error _, _) => return none

def dimsOf (name : Option String) : Compile (List Int) := do
  let c ← get
  match (variableOf (name.getD "")).run c with
  | (.ok v, _) => return v.dims
  | (.error _, _) => throw (.unknownVariable (name.getD "None"))

def isAvailable (name : String) : Compile Bool := do
  return !(← tableOf (← get).currentName).has name

def variableExists (name : String) : Compile Bool := do
  if (← tableOf (← get).currentName).has name then return true
  else return (← tableOf (← get).globalName).has name

def functionExists (name : String) : Compile Bool := return (← get).functions.has name

def addFunction (name : String) : Compile Unit := do
  let c ← get
  let f : Function := { name, returnType := c.currentType, returnAddress := none, returnDims := [],
                        start := none, declared := none, params := [], era := [] }
  set { c with functions := c.functions.put name f, currentName := some name }
  say fun _ => "-- " ++ name ++ " - " ++ c.currentType.name

def setGlobal : Compile Unit := modify fun c => { c with globalName := c.currentName }

def setType (t : Ty) : Compile Unit := modify fun c => { c with currentType := t }

def setNamed (name : Option String) : Compile Unit := modify fun c => { c with named := name }

def addVariableTo (function : Option String) (name : String) (type : Ty) (address : Int) :
    Compile Unit := do
  match (← functionOf function).declared with
  | none => throw .noTableStore
  | some t =>
    changeFunction function fun f =>
      { f with declared := some (t.put name { name, type, address, dims := [] }) }
    remark fun _ => "> VAR: " ++ name ++ " - " ++ type.name ++ " -> " ++ toString address

/-- Add a variable of the current type to the function at work. -/
def addVariable (name : String) (address : Int) : Compile Unit := do
  addVariableTo (← get).currentName name (← get).currentType address

def setDimsIn (function : Option String) (name : Option String) (dims : List Int) :
    Compile Unit := do
  match (← functionOf function).declared with
  | none => throw .noTableEntry
  | some t =>
    match name.bind t.get? with
    | none => throw (match name with | some n => .noVariable n | none => .noFunction none)
    | some v =>
      changeFunction function fun f => { f with declared := some (t.put v.name { v with dims }) }
      if (← get).debug then
        match Number.writeInt? (dims.foldl (· * ·) 1 + (v.address - 1)) with
        | none => throw .longNumber
        | some last =>
          remark fun _ => ">> VAR: " ++ v.name ++ " - " ++ v.type.name ++ shownInts dims ++ " -> " ++
            toString v.address ++ " - " ++ last

def setDims (dims : List Int) : Compile Unit := do
  setDimsIn (← get).currentName (← get).named dims

def addParam (address : Int) : Compile Unit := do
  let type := (← get).currentType
  changeCurrent fun f => { f with params := f.params ++ [{ type, address, dims := [] }] }

/-- Set the dimensions of the latest parameter of a function. -/
def setParamDimsIn (function : Option String) (dims : List Int) : Compile Unit := do
  match (← functionOf function).params.reverse with
  | [] => throw .noParam
  | p :: rest =>
    changeFunction function fun f => { f with params := (({ p with dims } : Param) :: rest).reverse }

def setParamDims (dims : List Int) : Compile Unit := do
  setParamDimsIn (← get).currentName dims

/-- Give the function at work an empty table, unless it has one. -/
def openTable : Compile Unit := do
  changeCurrent fun f => { f with declared := f.declared <|> some [] }

/-- Drop the table of the function at work and go back to the main program. -/
def closeTable : Compile Unit := do
  changeCurrent fun f => { f with declared := none }
  modify fun c => { c with currentName := c.globalName }

/-- The parameter of a function that the next argument is for. -/
def paramOf (function : String) : Compile Param := do
  let f ← functionOf (some function)
  let n := (← get).paramCount
  let i := if n < 0 then n + f.params.length else n
  match if i < 0 then none else f.params[i.toNat]? with
  | some p => return p
  | none => throw .noParam

/-- The number of cells of dimensions. -/
def sizeOf (dims : List Int) : Int := dims.foldl (· * ·) 1

def constant? (value : Literal) (type : Ty) : Compile (Option Constant) :=
  return (← get).constants.find? fun k => k.value.same value && k.type.name == type.name

/-- The constant with a value and a type; there has to be one. -/
def constantOf (value : Literal) (type : Ty) : Compile Constant := do
  match ← constant? value type with
  | some k => return k
  | none => throw (.noConstant value type.name)

def addConstant (value : Literal) (type : Ty) (address : Int) : Compile Unit := do
  let fits := fun (k : Constant) => k.value.same value && k.type.name == type.name
  modify fun c =>
    if c.constants.any fits then
      { c with constants := c.constants.map fun k => if fits k then ⟨value, type, address⟩ else k }
    else { c with constants := c.constants ++ [⟨value, type, address⟩] }
  remark fun _ => "> CTE: " ++ value.plainText ++ " - " ++ type.name ++ " -> " ++ toString address

/-- The constant with a value and a type, made if there is none. -/
def constant (value : Literal) (type : Ty) : Compile Constant := do
  if (← constant? value type).isNone then
    let address ← take (·.takeOne "cte" type)
    addConstant value type address
  constantOf value type

/-- The variable of a name, made in the function at work if there is none. -/
def declared (name : String) (type : Ty) : Compile Variable := do
  if !(← variableExists name) then
    let address ← take (·.takeOne ((← get).currentName.getD "None") type)
    addVariable name address
  variableOf name

end QuadLang.Compile
