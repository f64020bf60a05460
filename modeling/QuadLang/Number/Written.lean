/-
Written numbers.

A double is written with the fewest digits that read back as it.  Values whose
decimal point falls at most sixteen places to the right of the first digit and
at most three zeros to its left are written positionally and keep a fractional
part; all others have an exponent of at least two digits.
-/
import QuadLang.Number.Shortest

namespace QuadLang.Number

/-- How digits are laid out: which positions of the point are written without
an exponent, and whether a whole number keeps `.0`. -/
structure Layout where
  pointMax : Int
  keepFraction : Bool

/-- The layout of values in output: positional up to sixteen places. -/
def Layout.plain : Layout := { pointMax := 16, keepFraction := true }

/-- An exponent: sign and at least two digits. -/
def writeExponent (e : Int) : List Char :=
  let ds := Nat.toDigits 10 e.natAbs
  'e' :: (if e < 0 then '-' else '+') :: (if ds.length < 2 then '0' :: ds else ds)

/-- Lay out the digits of a positive number. -/
def Layout.write (l : Layout) (d : Digits) : List Char :=
  let n : Int := d.digits.length
  if -4 < d.point && d.point ≤ l.pointMax then
    if d.point ≤ 0 then
      '0' :: '.' :: List.replicate (-d.point).toNat '0' ++ d.digits
    else if n ≤ d.point then
      d.digits ++ List.replicate (d.point - n).toNat '0' ++ (if l.keepFraction then ['.', '0'] else [])
    else d.digits.take d.point.toNat ++ '.' :: d.digits.drop d.point.toNat
  else
    let e := d.point - 1
    match d.digits with
    | [c] => c :: writeExponent e
    | c :: cs => c :: '.' :: cs ++ writeExponent e
    | [] => writeExponent e

/-- A double in a layout, its digits chosen by `digits`. -/
def writeWith (l : Layout) (digits : Nat → Int → Digits) (x : Float) : String :=
  match decode x with
  | .nan => "nan"
  | .infinite negative => if negative then "-inf" else "inf"
  | .finite negative m e =>
    let body := if m == 0 then '0' :: (if l.keepFraction then ['.', '0'] else [])
      else l.write (digits m e)
    String.ofList (if negative then '-' :: body else body)

def writeFloat (x : Float) : String := writeWith .plain shortest x

/-- The most digits that an integer may have when it is converted from or to
text. -/
def maxDigits : Nat := 4300

def writeInt (i : Int) : String := toString i

def writeInt? (i : Int) : Option String :=
  -- A number of at most `2 ^ 14283` has at most 4300 digits; above, count them.
  if i.natAbs < Nat.pow 2 14280 then some (writeInt i)
  else if i.natAbs < Nat.pow 10 maxDigits then some (writeInt i)
  else none

/-- A finite double rounded to `n` places after the point (before it, when `n` is
negative), a tie going to the even digit. -/
def roundPlaces (x : Float) (n : Int) : Float :=
  match decode x with
  | .finite negative m e =>
    if m == 0 then x
    else
      let (num, den) := fraction m e
      let (a, b) := shiftDecimal num den (-n)
      ofDecimal negative (roundDiv a b) (-n)
  | _ => x

end QuadLang.Number
