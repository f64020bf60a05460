/-
Decimal digits of a double.

`shortest` finds the fewest digits that read back as the given double and, of
these, the ones nearest to it.  It works on the exact value: a positive double
is a fraction `num / den`, and the reals that round to it form an interval whose
ends belong to it exactly when its mantissa is even.
-/
import QuadLang.Number.Binary64

namespace QuadLang.Number

/-- The decimal `0.d₁d₂… · 10 ^ point` with digits `d₁d₂…`. -/
structure Digits where
  digits : List Char
  point : Int
deriving Repr, DecidableEq

/-- The digits of `d · 10 ^ k`, without zeros at the end. -/
def Digits.ofScaled (d : Nat) (k : Int) : Digits :=
  let cs := Nat.toDigits 10 d
  { digits := (cs.reverse.dropWhile (· == '0')).reverse, point := cs.length + k }

/-- The fraction `m · 2 ^ e`. -/
def fraction (m : Nat) (e : Int) : Nat × Nat :=
  if 0 ≤ e then (m * Nat.pow 2 e.toNat, 1) else (m, Nat.pow 2 (-e).toNat)

/-- `num / den · 10 ^ (-k)` as a fraction. -/
def shiftDecimal (num den : Nat) (k : Int) : Nat × Nat :=
  if 0 ≤ k then (num, den * Nat.pow 10 k.toNat) else (num * Nat.pow 10 (-k).toNat, den)

/-- The number of digits before the point of a positive fraction, negative when
it has zeros after the point. -/
def pointOf (num den : Nat) : Int :=
  -- 1233 / 4096 is a little below the logarithm of two.
  let guess : Int := ((Nat.log2 num : Int) - Nat.log2 den) * 1233 / 4096 - 1
  climb 4 guess
where
  /-- Raise a guess that is at most four too low. -/
  climb : Nat → Int → Int
    | 0, p => p
    | n + 1, p =>
      let (a, b) := shiftDecimal num den p
      if a < b then p else climb n (p + 1)

/-- The interval of reals that round to `m · 2 ^ e`, in units of `2 ^ (e - 2)`:
its lower and its upper end. -/
def roundingInterval (m : Nat) (e : Int) : Nat × Nat :=
  (if m == Nat.pow 2 52 && e > -1074 then 4 * m - 1 else 4 * m - 2, 4 * m + 2)

/-- Whether `d · 10 ^ k` rounds to `m · 2 ^ e`. -/
def readsBack (m : Nat) (e : Int) (d : Nat) (k : Int) : Bool :=
  let (lo, hi) := roundingInterval m e
  let (un, ud) := fraction 1 (e - 2)
  -- Compare `d · 10 ^ k` with `lo · un / ud` and `hi · un / ud`.
  let (a, b) := if 0 ≤ k then (d * Nat.pow 10 k.toNat, 1) else (d, Nat.pow 10 (-k).toNat)
  let x := a * ud
  let l := lo * un * b
  let h := hi * un * b
  if m % 2 == 0 then l ≤ x && x ≤ h else l < x && x < h

/-- The decimal of `n` digits nearest to `m · 2 ^ e` among the two neighbours
that read back as it, if one does. -/
def candidate? (m : Nat) (e : Int) (point : Int) (n : Nat) : Option Digits :=
  let (num, den) := fraction m e
  let k := point - n
  let (a, b) := shiftDecimal num den k
  let lo := a / b
  let r := a % b
  let below := readsBack m e lo k
  let above := readsBack m e (lo + 1) k
  if r == 0 && below then some (.ofScaled lo k)
  else if below && above then
    some (.ofScaled (if 2 * r < b then lo else if b < 2 * r then lo + 1 else lo + lo % 2) k)
  else if below then some (.ofScaled lo k)
  else if above then some (.ofScaled (lo + 1) k)
  else none

/-- The first of the digit counts `n, n + 1, …` that gives a decimal reading
back as the double; seventeen digits always do. -/
def firstCandidate (m : Nat) (e : Int) (point : Int) (n : Nat) : Nat → Digits
  | 0 => .ofScaled (roundDiv (shiftDecimal (fraction m e).1 (fraction m e).2 (point - n)).1
      (shiftDecimal (fraction m e).1 (fraction m e).2 (point - n)).2) (point - n)
  | fuel + 1 => (candidate? m e point n).getD (firstCandidate m e point (n + 1) fuel)

/-- The fewest digits that read back as the positive double `m · 2 ^ e`. -/
def shortest (m : Nat) (e : Int) : Digits :=
  let (num, den) := fraction m e
  firstCandidate m e (pointOf num den) 1 16

end QuadLang.Number
