/-
The object text.

A compiled program is written as four sections: the bounds of memory, the
constants, the cells that functions need, and the quads.  Fields are separated
by tabs and lines end in line feeds.  `debugLines` is the listing of the stacks
for debugging.
-/
import QuadLang.Compile.Emit

namespace QuadLang

def tabbed (fields : List String) : String := Text.join "\t" fields ++ "\n"

def objectSection (name : String) (lines : List String) : String :=
  "-> " ++ name ++ " START\n" ++ String.join lines ++ "->| " ++ name ++ " END\n"

/-- The line of a function that is not the main program. -/
def eraLine? (f : Function) : Except CompileFault (Option String) :=
  if f.name == "main" then .ok none
  else match f.era with
    | locals :: temps :: _ => .ok (some (f.name ++ "\t" ++ Text.join "\t" (locals.map toString) ++
        "\t" ++ Text.join "\t" (temps.map toString) ++ "\n"))
    | _ => .error .noEra

def quadLine (q : Quad) : Except CompileFault String :=
  match Compile.quadLine? q with
  | some line => .ok (line ++ "\n")
  | none => .error .shortQuad

def Compiler.objectText (c : Compiler) : Except CompileFault String := do
  let eras ← c.functions.mapM fun (_, f) => eraLine? f
  let quads ← c.quads.toList.mapM quadLine
  return objectSection "RANGES" (Segment.all.map fun s => tabbed (s.bounds.map toString)) ++
    objectSection "CTES" (c.constants.map fun k =>
      tabbed [k.value.plainText, k.type.name, toString k.address]) ++
    objectSection "ERAS" (eras.filterMap id) ++
    objectSection "QUADS" quads

namespace Compile

def build : Compile Unit := do
  let name := (← get).objectName
  say fun _ => "> Building " ++ name ++ ".o..."
  match (← get).objectText with
  | .error fault => throw fault
  | .ok text => modify fun c => { c with object := some text }
  say fun _ => "> Done!"

def printQuads : Compile Unit := do
  for (q, i) in (← get).quads.toList.zipIdx do
    match quadLine? q with
    | some line => print (toString i ++ ":\t" ++ line)
    | none => throw .shortQuad

def bracketed (texts : List String) : String := "[" ++ Text.join ", " texts ++ "]"

def printStacks : Compile Unit := do
  let c ← get
  let operands := c.operands.reverse
  let jumps := bracketed (c.jumps.reverse.map toString)
  let quoteName := fun (n : Option String) => (n.map Text.quote).getD "None"
  print "\t - - - DEBUG - - - "
  print ("\t sOperators -> " ++ bracketed (c.operators.reverse.map Text.quote))
  print "\t sVars:"
  print ("\t  operands -> " ++ bracketed (operands.map (·.name.shown)))
  print ("\t  vAddrs -> " ++ bracketed (operands.map (·.address.text)))
  print ("\t  types -> " ++ bracketed (operands.map fun o => Text.quote o.type.name))
  print ("\t  dims -> " ++ bracketed (operands.map fun o => shownInts o.dims))
  print ("\t sJumps -> " ++ jumps)
  print ("\t sBreaks -> " ++ bracketed (c.breaks.reverse.map shownInts))
  print ("\t sFuncs -> " ++ jumps)
  print ("\t sDims -> " ++ bracketed (c.accesses.reverse.map fun (n, i) =>
    "(" ++ quoteName n ++ ", " ++ toString i ++ ")"))
  print "\t - CTES"
  for k in c.constants do
    print ("\t  " ++ k.value.plainText ++ " " ++ k.type.name ++ " " ++ toString k.address)
  print "\t - - - DEBUG END - - - "

end Compile

end QuadLang
