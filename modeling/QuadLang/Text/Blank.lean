/-
White space.

Two classes are in use.  `isBlank` is the white space of the character
standard; `isNumeralBlank` is what may surround a written number, which leaves
out the four ASCII information separators.
-/
namespace QuadLang.Text

/-- White space of the character standard. -/
def isBlank (c : Char) : Bool :=
  let n := c.toNat
  (9 ≤ n && n ≤ 13) || (28 ≤ n && n ≤ 32) || n == 0x85 || n == 0xa0 || n == 0x1680 ||
    (0x2000 ≤ n && n ≤ 0x200a) || n == 0x2028 || n == 0x2029 || n == 0x202f || n == 0x205f ||
    n == 0x3000

/-- White space that may surround a written number. -/
def isNumeralBlank (c : Char) : Bool :=
  isBlank c && !(28 ≤ c.toNat && c.toNat ≤ 31)

/-- Drop the characters satisfying `p` from both ends. -/
def trimBy (p : Char → Bool) (cs : List Char) : List Char :=
  ((cs.dropWhile p).reverse.dropWhile p).reverse

def words (cs : List Char) : List (List Char) :=
  let (cur, acc) := cs.foldl
    (fun (s : List Char × List (List Char)) c =>
      if isBlank c then (if s.1.isEmpty then s else ([], s.1.reverse :: s.2))
      else (c :: s.1, s.2))
    ([], [])
  (if cur.isEmpty then acc else cur.reverse :: acc).reverse

end QuadLang.Text
