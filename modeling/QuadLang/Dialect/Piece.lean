/-
Source text cut into pieces.

`Dialect.pieces` cuts a source into blanks, line ends, comments, the lexemes of
tokens and single characters that belong nowhere.  The first class in a fixed
order that matches at a place takes it: decimals come before integers, so a
point between digits belongs to a number; integers may begin with a minus; the
words for true and false are cut off even from the front of a longer word; a
string goes on to the last quote of its line.

Design notes: a piece holds its characters, so the pieces of a source
concatenate to the source.  Each class is a function that gives the length of
its match.
-/
import QuadLang.Dialect.Basic
import QuadLang.Text.Digit

namespace QuadLang

inductive PieceClass where
  | blank
  | real
  | integer
  | char
  | truth
  | word
  | lines
  | string
  | comment
  | operator
  | mark
  | illegal
deriving Repr, DecidableEq

structure Piece where
  cls : PieceClass
  text : List Char
deriving Repr, DecidableEq

namespace Piece

/-- Whether a character separates tokens within a line. -/
def isBlank (c : Char) : Bool := c == ' ' || c == '\t'

def beginsWord (c : Char) : Bool := c.isAlpha || c == '_'

def goesOnWord (c : Char) : Bool := c.isAlphanum || c == '_'

/-- The number of characters at the front that satisfy `p`. -/
def span (p : Char → Bool) (cs : List Char) : Nat := (cs.takeWhile p).length

def some? (n : Nat) : Option Nat := if n == 0 then none else some n

/-- A minus may stand before a number: its length and what follows. -/
def minus : List Char → Nat × List Char
  | '-' :: cs => (1, cs)
  | cs => (0, cs)

/-- An integer: digits, perhaps after a minus. -/
def integer? (cs : List Char) : Option Nat :=
  let (m, rest) := minus cs
  (some? (span Text.isDigit rest)).map (m + ·)

/-- A decimal: digits on both sides of a point, perhaps after a minus. -/
def real? (cs : List Char) : Option Nat :=
  match integer? cs with
  | none => none
  | some n =>
    match cs.drop n with
    | '.' :: places => (some? (span Text.isDigit places)).map (n + 1 + ·)
    | _ => none

/-- One character of a line between single quotes. -/
def char? : List Char → Option Nat
  | '\'' :: c :: '\'' :: _ => if c == '\n' then none else some 3
  | _ => none

/-- A given text. -/
def text? (word : String) (cs : List Char) : Option Nat :=
  if word.toList.isPrefixOf cs then some word.length else none

/-- A word: a letter or `_`, then letters, digits and `_`, all ASCII. -/
def word? : List Char → Option Nat
  | c :: cs => if beginsWord c then some (1 + span goesOnWord cs) else none
  | [] => none

def lastQuote? (line : List Char) : Option Nat :=
  some? (line.reverse.dropWhile (· != '"')).length

/-- Double quotes, the last one that the line has. -/
def string? : List Char → Option Nat
  | '"' :: cs => (lastQuote? (cs.takeWhile (· != '\n'))).map (1 + ·)
  | _ => none

/-- A comment goes to the end of its line. -/
def comment? : List Char → Option Nat
  | '%' :: '%' :: cs => some (2 + span (· != '\n') cs)
  | _ => none

def oneOf? (words : List String) (cs : List Char) : Option Nat :=
  words.findSome? fun w => text? w cs

end Piece

namespace Dialect

/-- The classes in the order in which they are tried. -/
def classes (d : Dialect) : List (PieceClass × (List Char → Option Nat)) :=
  [(.blank, fun cs => match cs with | c :: _ => if Piece.isBlank c then some 1 else none | [] => none),
   (.real, Piece.real?),
   (.integer, Piece.integer?),
   (.char, Piece.char?),
   (.truth, Piece.oneOf? [d.truthWords.1, d.truthWords.2]),
   (.word, Piece.word?),
   (.lines, fun cs => Piece.some? (Piece.span (· == '\n') cs)),
   (.string, Piece.string?),
   (.comment, Piece.comment?),
   (.operator, Piece.oneOf? (d.operators.map (·.1))),
   (.mark, fun cs => match cs with | c :: _ => if d.marks.contains c then some 1 else none | [] => none)]

def classify (d : Dialect) (cs : List Char) : PieceClass × Nat :=
  (d.classes.findSome? fun (cls, len) => (len cs).map fun n => (cls, n)).getD (.illegal, 1)

def cut (d : Dialect) : Nat → List Char → List Piece
  | 0, _ => []
  | _ + 1, [] => []
  | n + 1, c :: cs =>
    let (cls, len) := d.classify (c :: cs)
    { cls, text := c :: cs.take (len - 1) } :: d.cut n (cs.drop (len - 1))

def pieces (d : Dialect) (source : List Char) : List Piece := d.cut source.length source

end Dialect

end QuadLang
