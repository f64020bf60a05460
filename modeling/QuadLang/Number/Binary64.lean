/-
Double precision numbers as exact fractions.

A finite double is `± m · 2 ^ e` with natural `m` and integer `e` (`decode`).
`ofRatio num den` is the double nearest to `num / den`, a tie going to the even
neighbour and what is too large becoming infinite; reading decimals, quotients
of integers and conversions from integers are all instances of it.
-/
namespace QuadLang.Number

inductive Parts where
  | nan
  | infinite (negative : Bool)
  /-- The number `± mantissa · 2 ^ exponent`. -/
  | finite (negative : Bool) (mantissa : Nat) (exponent : Int)
deriving Repr, DecidableEq

def decode (x : Float) : Parts :=
  let bits := x.toBits.toNat
  let negative := bits / Nat.pow 2 63 == 1
  let e : Nat := bits / Nat.pow 2 52 % 2048
  let m : Nat := bits % Nat.pow 2 52
  if e == 2047 then if m == 0 then .infinite negative else .nan
  else if e == 0 then .finite negative m (-1074)
  else .finite negative (Nat.pow 2 52 + m) ((e : Int) - 1075)

/-- The quotient `num / den` rounded to an integer, a tie going to the even one. -/
def roundDiv (num den : Nat) : Nat :=
  let q := num / den
  let r := num % den
  if 2 * r < den then q
  else if den < 2 * r then q + 1
  else q + q % 2

/-- The quotient `num · 2 ^ (-e) / den` rounded to an integer. -/
def roundScaled (num den : Nat) (e : Int) : Nat :=
  if 0 ≤ e then roundDiv num (den * Nat.pow 2 e.toNat)
  else roundDiv (num * Nat.pow 2 (-e).toNat) den

/-- The exponent at which `num / den` has 53 binary digits before the point,
or the least exponent there is. -/
def scaleOf (num den : Nat) : Int :=
  let guess : Int := (Nat.log2 num : Int) - Nat.log2 den - 52
  let e := if roundScaledDown num den guess < Nat.pow 2 52 then guess - 1 else guess
  max e (-1074)
where
  /-- The integer part of `num · 2 ^ (-e) / den`. -/
  roundScaledDown (num den : Nat) (e : Int) : Nat :=
    if 0 ≤ e then num / (den * Nat.pow 2 e.toNat) else num * Nat.pow 2 (-e).toNat / den

def infinityBits : Nat := 2047 * Nat.pow 2 52

/-- Bits of the double nearest to `num / den`, without a sign. -/
def ratioBits (num den : Nat) : Nat :=
  if num == 0 then 0
  else
    let e := scaleOf num den
    min ((e + 1074).toNat * Nat.pow 2 52 + roundScaled num den e) infinityBits

def ofMagnitude (negative : Bool) (bits : Nat) : Float :=
  Float.ofBits (UInt64.ofNat (if negative then Nat.pow 2 63 + bits else bits))

def ofRatio (negative : Bool) (num den : Nat) : Float :=
  ofMagnitude negative (ratioBits num den)

/-- The double nearest to an integer, unless it is too large. -/
def ofInt? (i : Int) : Option Float :=
  let bits := ratioBits i.natAbs 1
  if bits ≥ infinityBits then none else some (ofMagnitude (i < 0) bits)

/-- The double nearest to the quotient of two integers, unless it is too large.
The divisor is not zero; zero divided by less than zero is less than zero too. -/
def quotient? (a b : Int) : Option Float :=
  let bits := ratioBits a.natAbs b.natAbs
  if bits ≥ infinityBits then none
  else some (ofMagnitude (decide (a < 0) != decide (b < 0)) bits)

/-- The double nearest to `± digits · 10 ^ exponent`.  Exponents far outside the
range of doubles are cut short, which does not change the answer. -/
def ofDecimal (negative : Bool) (digits : Nat) (exponent : Int) : Float :=
  if digits == 0 then ofMagnitude negative 0
  else
    let size : Int := (Nat.toDigits 10 digits).length + exponent
    if size > 400 then ofMagnitude negative infinityBits
    else if size < -400 then ofMagnitude negative 0
    else if 0 ≤ exponent then ofRatio negative (digits * Nat.pow 10 exponent.toNat) 1
    else ofRatio negative digits (Nat.pow 10 (-exponent).toNat)

/-- The integer part of a finite double, toward zero. -/
def truncate? (x : Float) : Option Int :=
  match decode x with
  | .finite negative m e =>
    let n := if 0 ≤ e then m * Nat.pow 2 e.toNat else m / Nat.pow 2 (-e).toNat
    some (if negative then -(n : Int) else n)
  | _ => none

/-- How an integer compares with a double; none when the double is no number. -/
def compareInt (i : Int) (x : Float) : Option Ordering :=
  match decode x with
  | .nan => none
  | .infinite negative => some (if negative then .gt else .lt)
  | .finite negative m e =>
    let m : Int := if negative then -(m : Int) else m
    some (if 0 ≤ e then compare i (m * Nat.pow 2 e.toNat) else compare (i * Nat.pow 2 (-e).toNat) m)

/-- Remainder with the sign of the divisor, for a finite dividend and a nonzero
divisor; the result is rounded once where the sign has to be adjusted. -/
def floorMod (x y : Float) : Float :=
  match decode x, decode y with
  | .finite nx mx ex, .finite ny my ey =>
    let e := min ex ey
    let a := mx * Nat.pow 2 (ex - e).toNat
    let b := my * Nat.pow 2 (ey - e).toNat
    let r := a % b
    let rem := if 0 ≤ e then ofRatio nx (r * Nat.pow 2 e.toNat) 1 else ofRatio nx r (Nat.pow 2 (-e).toNat)
    if r == 0 then ofMagnitude ny 0
    else if nx != ny then rem + y
    else rem
  | .finite nx mx _, .infinite ny =>
    if mx == 0 then ofMagnitude ny 0 else if nx != ny then y else x
  | _, _ => Float.ofBits 0x7ff8000000000000

end QuadLang.Number
