/-
Reports on grammars and on the conflicts of their tables.

The report on a grammar lists its rules and, for every symbol, the rules that use
it.  The report on conflicts says how each was settled, and which rules are never
used because of it.
-/
import QuadLang.Grammar.Basic
import QuadLang.Lalr.Report

namespace QuadLang

def warning (s : String) : String := "WARNING: " ++ s

def failure (s : String) : String := "ERROR: " ++ s

namespace Grammar

def ruleLines (g : Grammar) : List String :=
  ["", "Grammar", ""] ++ g.productions.zipIdx.map fun (p, n) =>
    "Rule " ++ Text.padRight 5 (toString n) ++ " " ++ ((p.map (·.text)).getD "None")

/-- The lines of a table of symbols, in the order of their names. -/
def useLines (t : Table (List Nat)) : List String :=
  (t.mergeSort fun a b => decide (a.1 ≤ b.1)).map fun (s, uses) =>
    Text.padRight 20 s ++ " : " ++ Text.join " " (uses.map toString)

/-- The rules where each symbol appears. -/
def usageLines (g : Grammar) : List String :=
  ["Terminals, with rules where they appear", ""] ++ useLines g.terminals ++
  ["", "Nonterminals, with rules where they appear", ""] ++ useLines g.nonterminals ++ [""]

def ruleText (g : Grammar) (rule : Nat) : String :=
  ((g.productions[rule]?).join.map (·.text)).getD ""

end Grammar

/-- A number of things, in the singular or in the plural. -/
def counted (n : Nat) (thing : String) : String :=
  toString n ++ " " ++ thing ++ if n == 1 then "" else "s"

namespace Lalr.Tables

def reduceConflictLines (t : Tables) (g : Grammar) : List String :=
  t.reduceConflicts.eraseDups.flatMap fun (state, chosen, rejected) =>
    ["reduce/reduce conflict in state " ++ toString state ++ " resolved using rule (" ++
      g.ruleText chosen ++ ")",
     "rejected rule (" ++ g.ruleText rejected ++ ") in state " ++ toString state]

def neverReducedLines (t : Tables) (g : Grammar) : List String :=
  ((t.reduceConflicts.map fun (_, _, r) => r).eraseDups.filter fun r => t.reducedCount r == 0).map
    fun r => "Rule (" ++ g.ruleText r ++ ") is never reduced"

def conflictCounts (t : Tables) : List String :=
  let sr := t.shiftConflicts.length
  let rr := t.reduceConflicts.length
  (if sr == 0 then [] else [warning (counted sr "shift/reduce conflict")]) ++
  (if rr == 0 then [] else [warning (counted rr "reduce/reduce conflict")])

/-- The warnings on conflicts, when they are asked for. -/
def conflictWarnings (t : Tables) (g : Grammar) : List String :=
  t.conflictCounts ++ (t.reduceConflictLines g ++ t.neverReducedLines g).map warning

def conflictLines (t : Tables) (g : Grammar) : List String :=
  if t.shiftConflicts.isEmpty && t.reduceConflicts.isEmpty then []
  else
    let shifts := t.shiftConflicts.map fun (state, s, w) =>
      "shift/reduce conflict for " ++ t.rules.name s ++ " in state " ++ toString state ++
        " resolved as " ++ w.name
    (["", "Conflicts:", ""] ++ shifts ++ t.reduceConflictLines g ++ t.neverReducedLines g).map warning

end Lalr.Tables

end QuadLang
