/-
What fingerprints tell apart.

Results that are no lists are all written differently.  Of the members of a list what is written is
their number and then their bytes in a row: where one ends and the next begins is lost.
-/
import QuadLang.Fingerprint.Sample
import QuadLang.Proofs.Numeral

namespace QuadLang.Fingerprint.Sample

variable {s t : String} {x y : Sample} {depth : Nat}

inductive Plain : Sample → Prop
  | none : Plain .none
  | truth (b : Bool) : Plain (.truth b)
  | int (i : Int) : Plain (.int i)
  | text (s : String) : Plain (.text s)

/-- The first character of a text that does not begin like a number. -/
def mark (s : String) : Option Char := s.toList.head?.filter fun c => !(c.isDigit || c == '-')

end QuadLang.Fingerprint.Sample
