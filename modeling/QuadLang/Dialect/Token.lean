/-
Tokens and how they are taken from a source.

A `Scanner` holds the pieces that are left, the number of the current line and
the position in the source.  `Scanner.next` takes the next token and reports the
illegal characters on the way.
-/
import QuadLang.Dialect.Piece
import QuadLang.Number.Numeral
import QuadLang.Text.Quoted

namespace QuadLang

inductive Literal where
  | text (s : String)
  | int (i : Int)
  | real (x : Float)
  | truth (b : Bool)
deriving Repr

namespace Literal

def plainText : Literal → String
  | .text s => s
  | .int i => Number.writeInt i
  | .real x => Number.writeFloat x
  | .truth b => if b then "True" else "False"

/-- The text of a value in a list of tokens: texts are quoted. -/
def shown : Literal → String
  | .text s => Text.quote s
  | l => l.plainText

end Literal

structure Token where
  kind : String
  value : Literal
  line : Nat
  position : Nat
deriving Repr

def Token.shown (t : Token) : String :=
  "LexToken(" ++ t.kind ++ "," ++ t.value.shown ++ "," ++ toString t.line ++ "," ++
    toString t.position ++ ")"

/-- The kind and value of the token that a piece is, if it is one. -/
def Dialect.tokenOf (d : Dialect) (p : Piece) :
    Except Number.NumeralFault (Option (String × Literal)) :=
  let s := String.ofList p.text
  match p.cls with
  | .real => (Number.readFloat s).map fun x => some ("CTE_FLOAT", .real x)
  | .integer => (Number.readInt s).map fun i => some ("CTE_INT", .int i)
  | .char => .ok (some ("CTE_CHAR", .text (String.ofList ((p.text.drop 1).take 1))))
  | .truth => .ok (some ("CTE_BOOL", .truth (s == d.truthWords.1)))
  | .word => .ok (some ((d.reserved.lookup s).getD "ID", .text s))
  | .string => .ok (some ("STRING", .text s))
  | .operator => .ok (some ((d.operators.lookup s).getD s, .text s))
  | .mark => .ok (some (s, .text s))
  | .blank | .lines | .comment | .illegal => .ok none

structure Scanner where
  dialect : Dialect
  pieces : List Piece
  line : Nat
  position : Nat
deriving Repr

namespace Scanner

def ofSource (dialect : Dialect) (line : Nat) (source : String) : Scanner :=
  { dialect, pieces := dialect.pieces source.toList, line, position := 0 }

def report (line position : Nat) (c : List Char) : String :=
  "(" ++ toString line ++ ":" ++ toString position ++ ") Illegal character! -> " ++
    String.ofList c ++ "\n"

/-- Take pieces up to the next token. -/
def scan (d : Dialect) : List Piece → Nat → Nat → List String →
    List String × Except Number.NumeralFault (Option Token) × Scanner
  | [], line, position, reports =>
    (reports.reverse, .ok none, { dialect := d, pieces := [], line, position })
  | p :: rest, line, position, reports =>
    let after := position + p.text.length
    match d.tokenOf p with
    | .error e => (reports.reverse, .error e, { dialect := d, pieces := rest, line, position := after })
    | .ok (some (kind, value)) =>
      (reports.reverse, .ok (some { kind, value, line, position }),
        { dialect := d, pieces := rest, line, position := after })
    | .ok none =>
      match p.cls with
      | .lines => scan d rest (line + p.text.length) after reports
      | .illegal => scan d rest line after (report line position p.text :: reports)
      | _ => scan d rest line after reports

def next (s : Scanner) : List String × Except Number.NumeralFault (Option Token) × Scanner :=
  scan s.dialect s.pieces s.line s.position []

/-- At most `n` tokens: the reports, the tokens before a fault, and the rest. -/
def upTo : Nat → Scanner → List String × List Token × Option Number.NumeralFault × Scanner
  | 0, s => ([], [], none, s)
  | n + 1, s =>
    match s.next with
    | (reports, .ok (some t), s) =>
      let (more, ts, fault, s) := upTo n s
      (reports ++ more, t :: ts, fault, s)
    | (reports, .ok none, s) => (reports, [], none, s)
    | (reports, .error e, s) => (reports, [], some e, s)

def all (s : Scanner) : List String × List Token × Option Number.NumeralFault × Scanner :=
  upTo (s.pieces.length + 1) s

/-- The list of at most `n` tokens, a line each, with the reports in between. -/
def listUpTo : Nat → Scanner → List String × Option Number.NumeralFault × Scanner
  | 0, s => ([], none, s)
  | n + 1, s =>
    match s.next with
    | (reports, .ok (some t), s) =>
      let (more, fault, s) := listUpTo n s
      (reports ++ (t.shown ++ "\n") :: more, fault, s)
    | (reports, .ok none, s) => (reports, none, s)
    | (reports, .error e, s) => (reports, some e, s)

def listing (s : Scanner) : List String × Option Number.NumeralFault × Scanner :=
  listUpTo (s.pieces.length + 1) s

end Scanner

end QuadLang
