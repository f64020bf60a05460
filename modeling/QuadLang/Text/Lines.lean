/-
Lines of text.

`splitBy sep` cuts at every separator character and keeps empty pieces, so a
text of `n` separators has `n + 1` pieces.  `newlines` is reading in text mode:
a carriage return, alone or before a line feed, becomes a line feed.
-/
namespace QuadLang.Text

/-- Cut a list of characters at every `sep`. -/
def splitChars (sep : Char) : List Char → List (List Char)
  | [] => [[]]
  | c :: cs =>
    if c == sep then [] :: splitChars sep cs
    else match splitChars sep cs with
      | [] => [[c]]
      | piece :: rest => (c :: piece) :: rest

/-- Cut a text at every `sep`, keeping empty pieces. -/
def splitBy (sep : Char) (s : String) : List String :=
  (splitChars sep s.toList).map String.ofList

/-- The parts of a text before and after its first `sep`; all of it and nothing when
there is none. -/
def cutAt (sep : Char) (s : String) : String × String :=
  let cs := s.toList
  (String.ofList (cs.takeWhile (· != sep)), String.ofList ((cs.dropWhile (· != sep)).drop 1))

/-- A list of lines without the empty ones at its ends. -/
def trimLines (lines : List String) : List String :=
  ((lines.dropWhile (· == "")).reverse.dropWhile (· == "")).reverse

/-- The characters that end a line, apart from the pair `\r\n`. -/
def isLineEnd (c : Char) : Bool :=
  let n := c.toNat
  (10 ≤ n && n ≤ 13) || (28 ≤ n && n ≤ 30) || n == 0x85 || n == 0x2028 || n == 0x2029

/-- Cut after every line end; a line end at the very end begins no new line. -/
def lineChars : List Char → List Char → List (List Char)
  | [], [] => []
  | [], line => [line.reverse]
  | '\r' :: '\n' :: cs, line => line.reverse :: lineChars cs []
  | c :: cs, line => if isLineEnd c then line.reverse :: lineChars cs [] else lineChars cs (c :: line)

def splitLines (s : String) : List String := (lineChars s.toList []).map String.ofList

/-- Line ends as a reader in text mode sees them. -/
def unifyNewlines : List Char → List Char
  | [] => []
  | '\r' :: '\n' :: cs => '\n' :: unifyNewlines cs
  | '\r' :: cs => '\n' :: unifyNewlines cs
  | c :: cs => c :: unifyNewlines cs

/-- The text that a reader in text mode sees. -/
def newlines (s : String) : String := String.ofList (unifyNewlines s.toList)

def join (sep : String) (pieces : List String) : String := sep.intercalate pieces

def padRight (w : Nat) (s : String) : String :=
  s ++ String.ofList (List.replicate (w - s.length) ' ')

end QuadLang.Text
