/-
Rules as they are written.

A rule text has one production a line: `name : symbols`, or `| symbols` for
another right side of the name above.  Lines end at any of the usual line ends.
-/
import QuadLang.Text.Blank
import QuadLang.Text.Lines
import QuadLang.Text.Quoted

namespace QuadLang

structure WrittenRule where
  file : String
  line : Int
  name : String
  symbols : List String
deriving Repr, DecidableEq

inductive WrittenFault where
  | misplacedBar (file : String) (line : Int)
  | colonExpected (file : String) (line : Int)
  | incomplete (file : String) (line : Int) (text : String)
deriving Repr, DecidableEq

def WrittenFault.message : WrittenFault → String
  | .misplacedBar f l => f ++ ":" ++ toString l ++ ": Misplaced '|'"
  | .colonExpected f l => f ++ ":" ++ toString l ++ ": Syntax error. Expected ':'"
  | .incomplete f l t => f ++ ":" ++ toString l ++ ": Syntax error in rule " ++ Text.quote t

namespace WrittenRule

/-- Read one line, given the name of the rule above it; blank lines hold none. -/
def ofLine (file : String) (line : Int) (above : Option String) (text : String) :
    Except WrittenFault (Option WrittenRule) :=
  match (Text.words text.toList).map String.ofList with
  | [] => .ok none
  | "|" :: symbols =>
    match above with
    | some name => .ok (some { file, line, name, symbols })
    | none => .error (.misplacedBar file line)
  | name :: sign :: symbols =>
    if sign == ":" || sign == "::=" then .ok (some { file, line, name, symbols })
    else .error (.colonExpected file line)
  | [_] => .error (.incomplete file line (String.ofList (Text.trimBy Text.isBlank text.toList)))

def ofLines (file : String) : List String → Int → Option String →
    Except WrittenFault (List WrittenRule)
  | [], _, _ => .ok []
  | text :: rest, line, above => do
    match ← ofLine file line above text with
    | none => ofLines file rest (line + 1) above
    | some r => return r :: (← ofLines file rest (line + 1) (some r.name))

def read (text file : String) (line : Int) : Except WrittenFault (List WrittenRule) :=
  ofLines file (Text.splitLines text) (line + 1) none

end WrittenRule

end QuadLang
