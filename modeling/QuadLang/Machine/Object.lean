/-
Loading an object text.

The text has four sections: the bounds of memory, the constants, the cells that
functions need, and the quads.  Loading stops at the first line that does not
fit; what it has printed by then stays printed.
-/
import QuadLang.Machine.Memory

namespace QuadLang

/-- The lines that are left, what was printed, latest first, and whether to
print. -/
structure Loading where
  debug : Bool
  lines : List String
  printed : List String

abbrev Load (α : Type) := ExceptT MachineFault (StateM Loading) α

/-- A line that tells what is done. -/
def debugLine (label message : String) : String := label ++ ":\t" ++ message ++ "\n"

def numberList (xs : List Int) : String := "[" ++ Text.join ", " (xs.map toString) ++ "]"

def toNumbers (texts : List String) : Except MachineFault (List Int) :=
  texts.mapM fun s => (Value.text s).toInt

namespace Load

/-- Tell what is done, when debugging. -/
def say (message : String) : Load Unit :=
  modify fun s => if s.debug then { s with printed := debugLine "Init" message :: s.printed } else s

def line : Load String := do
  let s ← get
  match s.lines with
  | [] => throw .popEmpty
  | l :: rest => set { s with lines := rest }; return l

def expect (text : String) : Load Unit := do
  if (← line) != text then throw .notObject

def bounds : Load Bounds := do toNumbers (Text.splitBy '\t' (← line))

/-- The lines of a section, up to the line that ends it: the part of the section
that there is, and whether it ends. -/
def body (last : String) : Load (List String × Bool) := do
  let s ← get
  let (mine, rest) := s.lines.span (· != last)
  set { s with lines := rest.drop 1 }
  return (mine, !rest.isEmpty)

/-- Use the lines of a section one after the other. -/
def each {α : Type} (last : String) (start : α) (use : α → List String → Load α) : Load α := do
  let (lines, ends) ← body last
  let result ← lines.foldlM (fun acc l => use acc (Text.splitBy '\t' l)) start
  if ends then return result else throw .popEmpty

/-- A constant: value, type and address. -/
def constant (bounds : Bounds) (f : Frame) (fields : List String) : Load Frame := do
  match fields with
  | value :: type :: address :: _ =>
    let i ← (Value.text address).toInt
    match rowIndex? f.size (i - bounds.at_ 0) with
    | none => throw .badStore
    | some k =>
      say (value ++ " -> (" ++ address ++ ")")
      return f.setIfInBounds k (some { value := .text value, type := .ofName type })
  | _ => throw .badIndex

def era (t : Table (List Int × List Int)) (fields : List String) : Load (Table (List Int × List Int)) := do
  let name := fields.headD ""
  let locals ← toNumbers ((fields.drop 1).take 4)
  let temps ← toNumbers ((fields.drop 5).take 4)
  say ("ERA - " ++ name ++ " -> [" ++ numberList locals ++ ", " ++ numberList temps ++ "]")
  return t.put name (locals, temps)

/-- The bounds of a segment have to have five parts. -/
def checkBounds (b : Bounds) : Load Unit := do
  if b.length < 5 then throw .badIndex

def machine : Load Machine := do
  expect "-> RANGES START"
  let globalBounds ← bounds
  let localBounds ← bounds
  let tempBounds ← bounds
  let constantBounds ← bounds
  say ("Global ranges: " ++ numberList globalBounds)
  say ("Local ranges: " ++ numberList localBounds)
  say ("Temp ranges: " ++ numberList tempBounds)
  say ("Cte ranges: " ++ numberList constantBounds)
  expect "->| RANGES END"
  for b in [globalBounds, localBounds, tempBounds, constantBounds] do checkBounds b
  expect "-> CTES START"
  let constants ← each "->| CTES END" (Frame.empty constantBounds.size) (constant constantBounds)
  expect "-> ERAS START"
  let eras ← each "->| ERAS END" [] era
  expect "-> QUADS START"
  let quads ← each "->| QUADS END" #[] fun qs q => return qs.push q
  let debug := (← get).debug
  return {
    debug, globalBounds, localBounds, tempBounds, constantBounds, constants, eras, quads
    globals := Frame.empty globalBounds.size
    frames := #[Frame.empty localBounds.size, Frame.empty tempBounds.size, #[none], #[none]]
    locals := [0]
    temps := [1]
    localOffsets := [[0, 0, 0, 0]]
    tempOffsets := [[0, 0, 0, 0]]
    nextLocals := 2
    nextTemps := 3
    place := 0
    calls := []
    returns := []
    arguments := []
    extents := [1, 1]
    lastValue := none
    names := []
    input := []
    printed := [] }

end Load

/-- The lines of an input text; a line feed at the very end begins no new line. -/
def inputLines (s : String) : List String :=
  let lines := Text.splitBy '\n' s
  if lines.getLast? == some "" then lines.dropLast else lines

/-- Load an object text, with the input that the program will read: what was
printed, and the machine. -/
def Machine.load (debug : Bool) (object input : String) :
    List String × Except MachineFault Machine :=
  let (result, s) := Load.machine.run { debug, lines := Text.splitBy '\n' object, printed := [] }
  match result with
  | .error f => (s.printed, .error f)
  | .ok m => (s.printed, .ok { m with input := inputLines input, printed := s.printed })

end QuadLang
