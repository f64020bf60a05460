/-
Quoted literals.

`readLiteral` reads a text in single or double quotes, or in three of them, with
backslash escapes; literals that follow each other are joined.  It is the
reading side of `quote`: a text that is not a sequence of literals has no value.
-/
import QuadLang.Text.Quoted

namespace QuadLang.Text

def hexValue? (c : Char) : Option Nat :=
  if '0' ≤ c && c ≤ '9' then some (c.toNat - '0'.toNat)
  else if 'a' ≤ c && c ≤ 'f' then some (c.toNat - 'a'.toNat + 10)
  else if 'A' ≤ c && c ≤ 'F' then some (c.toNat - 'A'.toNat + 10)
  else none

/-- Exactly `n` hexadecimal digits and the rest. -/
def readHex : Nat → Nat → List Char → Option (Nat × List Char)
  | 0, acc, cs => some (acc, cs)
  | n + 1, acc, c :: cs => (hexValue? c).bind fun d => readHex n (16 * acc + d) cs
  | _ + 1, _, [] => none

/-- Up to `n` octal digits and the rest. -/
def readOctal : Nat → Nat → List Char → Nat × List Char
  | n + 1, acc, c :: cs =>
    if '0' ≤ c && c ≤ '7' then readOctal n (8 * acc + (c.toNat - '0'.toNat)) cs else (acc, c :: cs)
  | _, acc, cs => (acc, cs)

/-- The characters that an escape stands for, after its backslash. -/
def readEscape : List Char → Option (List Char × List Char)
  | '\n' :: cs => some ([], cs)
  | '\\' :: cs => some (['\\'], cs)
  | '\'' :: cs => some (['\''], cs)
  | '"' :: cs => some (['"'], cs)
  | 'a' :: cs => some ([Char.ofNat 7], cs)
  | 'b' :: cs => some ([Char.ofNat 8], cs)
  | 'f' :: cs => some ([Char.ofNat 12], cs)
  | 'n' :: cs => some (['\n'], cs)
  | 'r' :: cs => some (['\r'], cs)
  | 't' :: cs => some (['\t'], cs)
  | 'v' :: cs => some ([Char.ofNat 11], cs)
  | 'x' :: cs => (readHex 2 0 cs).map fun (n, rest) => ([Char.ofNat n], rest)
  | 'u' :: cs => (readHex 4 0 cs).map fun (n, rest) => ([Char.ofNat n], rest)
  | 'U' :: cs => (readHex 8 0 cs).bind fun (n, rest) =>
    if n < 0x110000 then some ([Char.ofNat n], rest) else none
  | 'N' :: _ => none
  | c :: cs =>
    if '0' ≤ c && c ≤ '7' then
      let (n, rest) := readOctal 3 0 (c :: cs)
      some ([Char.ofNat n], rest)
    else some (['\\', c], cs)
  | [] => none

/-- The contents of a literal up to its closing quote, one or three characters
`q`, and the rest.  The number bounds the length. -/
def readContents (q : Char) (triple : Bool) : Nat → List Char → Option (List Char × List Char)
  | 0, _ => none
  | n + 1, cs =>
    match cs with
    | [] => none
    | '\\' :: rest => do
      let (text, rest) ← readEscape rest
      let (more, rest) ← readContents q triple n rest
      return (text ++ more, rest)
    | c :: rest =>
      if c == q then
        if triple then
          match rest with
          | c₁ :: c₂ :: rest' =>
            if c₁ == q && c₂ == q then some ([], rest')
            else (readContents q triple n rest).map fun (more, r) => (c :: more, r)
          | _ => none
        else some ([], rest)
      else if c == '\n' && !triple then none
      else (readContents q triple n rest).map fun (more, r) => (c :: more, r)

def readOne : List Char → Option (List Char × List Char)
  | c₀ :: c₁ :: c₂ :: cs =>
    if c₀ == '\'' || c₀ == '"' then
      if c₁ == c₀ && c₂ == c₀ then readContents c₀ true (cs.length + 1) cs
      else readContents c₀ false (cs.length + 3) (c₁ :: c₂ :: cs)
    else none
  | c₀ :: cs =>
    if c₀ == '\'' || c₀ == '"' then readContents c₀ false (cs.length + 1) cs else none
  | [] => none

/-- Literals one after the other, with blanks between them. -/
def readAll : Nat → List Char → Option (List Char)
  | 0, _ => none
  | n + 1, cs => do
    let (text, rest) ← readOne cs
    let rest' := rest.dropWhile fun c => c == ' ' || c == '\t' || c == Char.ofNat 12
    if rest'.all (fun c => c == ' ' || c == '\t' || c == '\n' || c == Char.ofNat 12) then
      return text
    else
      let more ← readAll n rest'
      return text ++ more

def readLiteral (s : String) : Option String :=
  (readAll (s.length + 1) s.toList).map String.ofList

end QuadLang.Text
