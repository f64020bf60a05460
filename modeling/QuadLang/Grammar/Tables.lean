/-
From a grammar to its items and parsing tables.

Items are built for all productions at once; a production that is added later
has none until they are built again.  Making tables builds the items and
computes the first and follow sets as well.
-/
import QuadLang.Grammar.FirstFollow
import QuadLang.Lalr.Tables

namespace QuadLang

/-- An item as a grammar shows it: its text, the place of its dot, the symbol
before the dot (at the beginning: the last of the dotted symbols) and the
productions of the symbol after it. -/
structure ItemView where
  text : String
  dot : Nat
  before : String
  after : List Production

inductive TableFault where
  | noStart
  | sets (fault : SetFault)
deriving Repr, DecidableEq

def TableFault.message : TableFault → String
  | .noStart => "object of type 'NoneType' has no len()"
  | .sets f => f.message

def TableFault.kind : TableFault → FaultKind
  | .noStart => .type
  | .sets f => f.kind

/-- The text about a state whose conflict cannot be settled. -/
def unsettledText (state : Nat) : String := "Unknown conflict in state " ++ toString state

namespace Grammar

def buildItems (g : Grammar) : Option Grammar :=
  g.root.map fun _ => { g with built := g.rules.length + 1, rootBuilt := true }

/-- The productions after the dot, as far as they were known when the items were
built. -/
def followers (g : Grammar) (symbol : Option String) : List Production :=
  match symbol with
  | none => []
  | some s =>
    let ps := g.productionsOf s
    if ps.any (·.number < g.built) then ps else []

def itemsOf (g : Grammar) (p : Production) : List ItemView :=
  if if p.number == 0 then g.rootBuilt else p.number < g.built then
    (List.range (p.symbols.length + 1)).map fun i =>
      let dotted := p.dotted i
      { text := p.itemText i
        dot := i
        before := (if i == 0 then dotted.getLast? else dotted[i - 1]?).getD ""
        after := g.followers p.symbols[i]? }
  else []

def makeTables (g : Grammar) : Grammar × Except TableFault Lalr.Tables :=
  match g.buildItems with
  | none => (g, .error .noStart)
  | some g =>
    match g.computeFirst with
    | (g, .error e) => (g, .error (.sets e))
    | (g, .ok _) =>
      match g.computeFollow with
      | (g, .error e) => (g, .error (.sets e))
      | (g, .ok _) =>
        match Lalr.Rules.ofGrammar? g with
        | none => (g, .error .noStart)
        | some rules =>
          let built := Lalr.build rules g.marks
          ({ g with marks := built.marks }, .ok (Lalr.Tables.ofStates rules built.states))

end Grammar

end QuadLang
