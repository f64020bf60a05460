/-
The two dialects of the language and their words.

A program can be written in the plain dialect or in the goose dialect.  They
differ in their words, operators and punctuation and not in what a program
means.
-/
namespace QuadLang

/-- A way of writing programs. -/
inductive Dialect where
  | plain
  | goose
deriving Repr, DecidableEq

namespace Dialect

/-- The reserved words with the kinds of their tokens. -/
def reserved : Dialect → List (String × String)
  | .plain => [
    ("Program", "PROGRAM"), ("main", "MAIN"), ("var", "VAR"), ("int", "INT"), ("float", "FLOAT"),
    ("char", "CHAR"), ("bool", "BOOL"), ("function", "FUNCTION"), ("void", "VOID"),
    ("return", "RETURN"), ("read", "READ"), ("print", "PRINT"), ("if", "IF"), ("then", "THEN"),
    ("else", "ELSE"), ("while", "WHILE"), ("do", "DO"), ("from", "FROM"), ("to", "TO"),
    ("break", "BREAK")]
  | .goose => [
    ("GOOSE", "GOOSE"), ("HONK", "HONK"), ("HOONK", "HOONK"), ("HOOONK", "HOOONK"),
    ("HOOOONK", "HOOOONK"), ("HO", "HO"), ("ONK", "ONK"), ("BONK", "BONK"), ("AM", "AM"),
    ("MORE", "MORE"), ("LESS", "LESS"), ("GOOSETIPLY", "GOOSETIPLY"), ("GOOSIVIDE", "GOOSIVIDE"),
    ("LEFTOVERS", "LEFTOVERS"), ("GOOSECOIN", "GOOSECOIN"), ("SURPRISE", "SURPRISE"), ("wh", "WH"),
    ("NOT", "NOT"), ("INFERIOR", "INFERIOR"), ("SUPERIOR", "SUPERIOR"), ("maybe", "MAYBE"),
    ("TOGETHER", "TOGETHER"), ("FOREVER", "FOREVER"), ("POLE", "POLE"), ("OPEN", "OPEN"),
    ("CLOSE", "CLOSE"), ("BOX", "BOX"), ("FANCY", "FANCY"), ("GATE", "GATE"), ("doot", "DOOT"),
    ("MOAR", "MOAR"), ("Untitled", "UNTITLED"), ("game", "GAME"), ("Press", "PRESS"), ("y", "Y"),
    ("to", "TO"), ("honk", "HONK_LOWERCASE"), ("pond", "POND"), ("WHOLE", "WHOLE"),
    ("PART", "PART"), ("LETTER", "LETTER"), ("DUCK", "DUCK"), ("OR", "OR"), ("my", "MY"),
    ("soul", "SOUL"), ("task", "TASK"), ("GOT", "GOT"), ("BELL", "BELL"), ("SHOW", "SHOW"),
    ("ON", "ON"), ("TV", "TV"), ("inhales", "INHALES"), ("peace", "PEACE"), ("was", "WAS"),
    ("never", "NEVER"), ("an", "AN"), ("option", "OPTION")]

/-- The operators of two characters with the kinds of their tokens. -/
def operators : Dialect → List (String × String)
  | .plain => [("==", "IS_EQUAL"), ("!=", "IS_NOT_EQUAL"), ("<=", "LESS_THAN_OR_EQUAL"),
    (">=", "MORE_THAN_OR_EQUAL")]
  | .goose => []

/-- The characters that are tokens by themselves. -/
def marks : Dialect → List Char
  | .plain => "+-*/%$!?&=<>()[]\x7b\x7d|.,:;".toList
  | .goose => "?!-".toList

/-- The words for true and for false. -/
def truthWords : Dialect → String × String
  | .plain => ("true", "false")
  | .goose => ("Goose", "Duck")

/-- The kinds of tokens that have their own value. -/
def valueKinds : List String := ["ID", "CTE_INT", "CTE_FLOAT", "CTE_CHAR", "CTE_BOOL", "STRING"]

def kinds (d : Dialect) : List String :=
  valueKinds ++ d.operators.map (·.2) ++ d.reserved.map (·.2)

end Dialect

end QuadLang
