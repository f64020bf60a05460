/-
Reading numbers.

Integers and reals are read from text that may have blanks around it, a sign,
digits of any script and single underscores between digits.  Reals may have a
fraction and an exponent, or be one of the words for infinity and for "not a
number".  `NumeralFault` lists what can be wrong.
-/
import QuadLang.Number.Written
import QuadLang.Text.Blank
import QuadLang.Text.Digit
import QuadLang.Text.Quoted

namespace QuadLang.Number

open QuadLang.Text

inductive NumeralFault where
  | notInteger (text : String)
  | notReal (text : String)
  | tooManyDigits (count : Nat)
deriving Repr, DecidableEq

/-- The text of a fault.  A bad integer is shown by the first two hundred
characters of its quoted form. -/
def NumeralFault.message : NumeralFault → String
  | .notInteger text =>
    "invalid literal for int() with base 10: " ++ String.ofList ((quote text).toList.take 200)
  | .notReal text => "could not convert string to float: " ++ quote text
  | .tooManyDigits count =>
    "Exceeds the limit (4300 digits) for integer string conversion: value has " ++
      toString count ++ " digits; use sys.set_int_max_str_digits() to increase the limit"

/-- Write blanks and digits of every script in ASCII.  Every other character
outside ASCII becomes a question mark, which no number contains. -/
def normalize (c : Char) : Char :=
  if c.toNat < 128 then c
  else if isBlank c then ' '
  else match digitValue? c with
    | some d => Char.ofNat ('0'.toNat + d)
    | none => '?'

/-- Text without sign and blanks: whether it is negative, and the rest. -/
def splitSign : List Char → Bool × List Char
  | '-' :: cs => (true, cs)
  | '+' :: cs => (false, cs)
  | cs => (false, cs)

/-- A maximal run of digits with single underscores between them: the digits
and the rest of the text; none when underscores stand in wrong places. -/
def digitRun (cs : List Char) : Option (List Char × List Char) :=
  let run := cs.takeWhile fun c => c.isDigit || c == '_'
  let rest := cs.dropWhile fun c => c.isDigit || c == '_'
  if run.head? == some '_' || run.getLast? == some '_' || doubled run then none
  else some (run.filter (· != '_'), rest)
where
  /-- Whether two underscores stand next to each other. -/
  doubled : List Char → Bool
    | '_' :: '_' :: _ => true
    | _ :: cs => doubled cs
    | [] => false

def ofDigits (ds : List Char) : Nat :=
  ds.foldl (fun n c => 10 * n + (c.toNat - '0'.toNat)) 0

def readInt (text : String) : Except NumeralFault Int :=
  let cs := (text.toList.map normalize).dropWhile isNumeralBlank
  let (negative, cs) := splitSign cs
  match digitRun cs with
  | none => .error (.notInteger text)
  | some (ds, rest) =>
    if ds.length > maxDigits then .error (.tooManyDigits ds.length)
    else if ds.isEmpty || !rest.all isNumeralBlank then .error (.notInteger text)
    else .ok (if negative then -(ofDigits ds : Int) else ofDigits ds)

def infinity : Float := Float.ofBits 0x7ff0000000000000

def negInfinity : Float := Float.ofBits 0xfff0000000000000

def notANumber : Float := Float.ofBits 0x7ff8000000000000

/-- Read the exponent of a real: `e`, a sign and digits, or nothing. -/
def readExponent : List Char → Option Int
  | [] => some 0
  | c :: cs =>
    if c == 'e' || c == 'E' then
      let (negative, cs) := splitSign cs
      match digitRun cs with
      | some (ds, []) =>
        if ds.isEmpty then none
        else
          let n : Int := ofDigits ds
          some (if negative then -n else n)
      | _ => none
    else none

/-- Read a real without sign and blanks, given its sign. -/
def readMagnitude (negative : Bool) (cs : List Char) : Option Float :=
  let word := String.ofList (cs.map Char.toLower)
  if word == "inf" || word == "infinity" then some (if negative then negInfinity else infinity)
  else if word == "nan" then some notANumber
  else do
    let (whole, rest) ← digitRun cs
    let (places, rest) ← match rest with
      | '.' :: cs => digitRun cs
      | cs => some ([], cs)
    if whole.isEmpty && places.isEmpty then none
    else
      let e ← readExponent rest
      some (ofDecimal negative (ofDigits (whole ++ places)) (e - places.length))

def readFloat (text : String) : Except NumeralFault Float :=
  let (negative, cs) := splitSign (trimBy isNumeralBlank (text.toList.map normalize))
  match readMagnitude negative cs with
  | some x => .ok x
  | none => .error (.notReal text)

end QuadLang.Number
