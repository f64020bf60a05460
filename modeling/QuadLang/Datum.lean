/-
Values of parses.

What a grammar action computes and the logs show: nothing, truth values,
numbers, texts, lists, tokens and grammar symbols.  `Datum.shown` is the text of
a value in a log, and `briefly` and `tersely` are its shortened forms.
-/
import QuadLang.Number.Written
import QuadLang.Text.Lines
import QuadLang.Text.Quoted

namespace QuadLang

inductive Datum where
  | none
  | bool (b : Bool)
  | int (i : Int)
  | real (x : Float)
  | text (s : String)
  | list (items : List Datum)
  | tuple (items : List Datum)
  /-- A token: kind, value, line, if it has one, and position. -/
  | token (kind : String) (value : Datum) (line : Option Int) (position : Int)
  | symbol (kind : String)
deriving Repr, Inhabited

namespace Datum

def commas (texts : List String) : String := Text.join ", " texts

/-- The text of a value in a log. -/
def shown : Datum → String
  | .none => "None"
  | .bool b => if b then "True" else "False"
  | .int i => Number.writeInt i
  | .real x => Number.writeFloat x
  | .text s => Text.quote s
  | .list items => "[" ++ commas (shownAll items) ++ "]"
  | .tuple items =>
    match shownAll items with
    | [t] => "(" ++ t ++ ",)"
    | texts => "(" ++ commas texts ++ ")"
  | .token kind value line position =>
    "LexToken(" ++ kind ++ "," ++ value.shown ++ "," ++ toString (line.getD 0) ++ "," ++
      toString position ++ ")"
  | .symbol kind => kind
where
  shownAll : List Datum → List String
    | [] => []
    | x :: rest => x.shown :: shownAll rest

def kindName : Datum → String
  | .none => "NoneType"
  | .bool _ => "bool"
  | .int _ => "int"
  | .real _ => "float"
  | .text _ => "str"
  | .list _ => "list"
  | .tuple _ => "tuple"
  | .token .. => "LexToken"
  | .symbol _ => "YaccSymbol"

/-- The text of a value on one line: quoted once more when it has line feeds. -/
def onOneLine (d : Datum) : String :=
  let s := d.shown
  if s.toList.contains '\n' then Text.quote s else s

/-- The most characters of a result that a log shows. -/
def resultLimit : Nat := 40

/-- A result in a log: its kind, its address, which is not shown, and the
beginning of its text. -/
def briefly (d : Datum) : String :=
  let s := d.onOneLine
  let s := if s.length > resultLimit then String.ofList (s.toList.take resultLimit) ++ " ..." else s
  "<" ++ d.kindName ++ " @ 0x?> (" ++ s ++ ")"

/-- A value on the stack in a log: its text when it is short. -/
def tersely (d : Datum) : String :=
  let s := d.onOneLine
  if s.length < 16 then s else "<" ++ d.kindName ++ " @ 0x?>"

def truthy : Datum → Bool
  | .none => false
  | .bool b => b
  | .int i => i != 0
  | .real x => !(x == 0)
  | .text s => s != ""
  | .list xs | .tuple xs => !xs.isEmpty
  | .token .. | .symbol _ => true

def members? : Datum → Option (List Datum)
  | .list xs | .tuple xs => Option.some xs
  | _ => Option.none

def text? : Datum → Option String
  | .text s => Option.some s
  | _ => Option.none

def plainText : Datum → String
  | .text s => s
  | d => d.shown

end Datum

end QuadLang
