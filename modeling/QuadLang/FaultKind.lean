/-
Kinds of faults.

Every fault of this library has a message and a kind; the kind tells what sort of
mistake it is, whatever part of the library reports it.
-/
namespace QuadLang

inductive FaultKind where
  /-- A rule of the language is broken. -/
  | general
  /-- A value is not one that is wanted. -/
  | value
  /-- A value is not of the type that is wanted. -/
  | type
  | index
  | key
  | name
  /-- A value was never set. -/
  | unset
  /-- A part of a value does not exist. -/
  | part
  | overflow
  | division
  | endOfInput
  | matrix
  | elementwise
  | expression
  /-- Something is called too early or too late. -/
  | order
  | grammar
  | tables
  | scanning
  | build
  /-- Text is missing. -/
  | missingText
  | depth
  | folder
  | exit
  | timeout
deriving Repr, DecidableEq

end QuadLang
