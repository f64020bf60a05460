/-
Definitions from which lexers and parsers are generated.

A generator is given named definitions: functions, with their documentation, the
line where they are defined and the number of their arguments, and plain values.
-/
import QuadLang.Datum
import QuadLang.Pattern.Basic
import QuadLang.Table

namespace QuadLang

inductive Definition where
  | function (doc : Option String) (line : Int) (arity : Int)
  | value (d : Datum)
deriving Repr

structure Definitions where
  /-- In the order in which they are looked at. -/
  entries : List (String × Definition)
  /-- The name of the file in messages about functions. -/
  codeFile : String
  /-- The name of the file, unless its text cannot be read. -/
  file : Option String
  /-- The lines of the file, if they can be read. -/
  source : Option (List String)

namespace Definitions

/-- The definitions of a file, later ones in place of earlier ones.  They are looked at
in the order of their names, unless `inOrder` keeps the order in which they stand. -/
def ofList (entries : List (String × Definition)) (inOrder : Bool) (codeFile : String)
    (file : Option String) (source : Option (List String)) : Definitions :=
  let entries := entries.foldl (fun t (k, d) => Table.put t k d) []
  ⟨if inOrder then entries else entries.mergeSort fun a b => decide (a.1 ≤ b.1), codeFile, file, source⟩

def get? (d : Definitions) (name : String) : Option Definition := d.entries.lookup name

def value? (d : Definitions) (name : String) : Option Datum :=
  match d.get? name with
  | some (.value v) => some v
  | _ => none

/-- The name of the file in messages about rules. -/
def fileText (d : Definitions) : String := d.file.getD "None"

/-- The functions whose definitions occur twice in the file: name, line and
earlier line.  `names` picks the name out of a line. -/
def redefinitions (d : Definitions) (names : String → Option String) :
    List (String × Nat × Nat) :=
  let (_, found) := ((d.source.getD []).zipIdx).foldl (fun (seen, found) (text, i) =>
    match names text with
    | none => (seen, found)
    | some name =>
      match (seen : List (String × Nat)).lookup name with
      | none => ((name, i + 1) :: seen, found)
      | some before => (seen, found ++ [(name, i + 1, before)])) ([], [])
  found

def definedName (beginning : String) (line : String) : Option String :=
  let cs := line.toList.dropWhile Text.isBlank
  if !("def".toList.isPrefixOf cs) then none
  else
    let rest := cs.drop 3
    let name := rest.dropWhile Text.isBlank
    if name.length == rest.length || !(beginning.toList.isPrefixOf name) then none
    else
      let isPart := fun (c : Char) => c.isAlphanum || c == '_'
      if (name.dropWhile isPart).head? == some '(' then some (String.ofList (name.takeWhile isPart))
      else none

end Definitions

end QuadLang
