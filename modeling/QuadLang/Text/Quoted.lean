/-
Quoted text.

`quote s` is the text `s` between quotation marks: single marks, unless `s`
holds a single mark and no double one.  The mark in use and the backslash are
escaped, tab and line ends are written by letter, and every other hidden
character by its code point in hexadecimal, in the shortest of the three widths
two, four and eight.
-/
import QuadLang.Text.Printable

namespace QuadLang.Text

/-- Lower-case hexadecimal digits of `n`, padded with zeros to width `w`. -/
def hex (w n : Nat) : List Char :=
  let ds := Nat.toDigits 16 n
  List.replicate (w - ds.length) '0' ++ ds

/-- One character of quoted text, where `mark` is the quotation mark. -/
def escapeChar (mark c : Char) : List Char :=
  if c == mark || c == '\\' then ['\\', c]
  else if c == '\t' then ['\\', 't']
  else if c == '\n' then ['\\', 'n']
  else if c == '\r' then ['\\', 'r']
  else if isPrintable c then [c]
  else if c.toNat < 0x100 then '\\' :: 'x' :: hex 2 c.toNat
  else if c.toNat < 0x10000 then '\\' :: 'u' :: hex 4 c.toNat
  else '\\' :: 'U' :: hex 8 c.toNat

/-- The quotation mark chosen for a text. -/
def markFor (cs : List Char) : Char :=
  if cs.contains '\'' && !cs.contains '"' then '"' else '\''

def quote (s : String) : String :=
  let cs := s.toList
  let mark := markFor cs
  String.ofList (mark :: cs.flatMap (escapeChar mark) ++ [mark])

end QuadLang.Text
