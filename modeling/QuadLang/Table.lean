/-
Tables with names as keys.

A `Table` lists its entries in the order in which their names were met first;
changing an entry keeps its place.
-/
namespace QuadLang

/-- A list of names with values, in the order in which the names were met. -/
abbrev Table (α : Type) := List (String × α)

namespace Table

variable {α : Type}

def has (t : Table α) (k : String) : Bool := t.any (·.1 == k)

def get? (t : Table α) (k : String) : Option α := t.lookup k

/-- Change the entry for a name, or append one at the end. -/
def put (t : Table α) (k : String) (v : α) : Table α :=
  if t.has k then t.map fun e => if e.1 == k then (k, v) else e else t ++ [(k, v)]

end Table

end QuadLang
