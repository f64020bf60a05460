/-
Regular expressions with backtracking semantics.

`Pattern` is the abstract form: characters, classes, sequences, ordered
alternatives, counted repetitions, numbered groups, look-around, atomic groups,
anchors, back references and choices by a group.  `Pattern.run p k s` matches `p` at the spot `s`
and goes on with `k`; alternatives are tried in order and the first success
wins, so the order of the alternatives matters and not the length of a match.

Design notes: matching is structural in the pattern.  A repetition goes on only
after a turn that passes a character, so the characters left bound the number of
its turns.
-/
import QuadLang.Text.Blank
import QuadLang.Text.Case
import QuadLang.Text.Word

namespace QuadLang

inductive CharItem where
  | one (c : Char)
  | span (lo hi : Char)
  | digit (negated ascii : Bool)
  | space (negated ascii : Bool)
  | word (negated ascii : Bool)
deriving Repr, DecidableEq

inductive Greed where
  | most
  | fewest
  /-- As many as possible, without giving any back. -/
  | possessive
deriving Repr, DecidableEq

inductive Folding where
  | exact
  | ascii
  | all
deriving Repr, DecidableEq

inductive Anchor where
  | textStart
  | textEnd
  /-- At the end or before a line feed at the end. -/
  | lastLineEnd
  | lineStart
  | lineEnd
  | wordEdge (negated ascii : Bool)
deriving Repr, DecidableEq

/-- A regular expression. -/
inductive Pattern where
  | empty
  | char (fold : Folding) (c : Char)
  | any (lineFeed : Bool)
  | set (fold : Folding) (negated : Bool) (items : List CharItem)
  | seq (p q : Pattern)
  | alt (p q : Pattern)
  | rep (min : Nat) (max : Option Nat) (greed : Greed) (p : Pattern)
  | group (index : Nat) (p : Pattern)
  /-- Look ahead (`behind` none) or behind by a fixed width. -/
  | look (behind : Option Nat) (negated : Bool) (p : Pattern)
  | atomic (p : Pattern)
  | anchor (a : Anchor)
  | backref (fold : Folding) (index : Nat)
  /-- The first pattern if the group has matched, and the second otherwise. -/
  | choice (index : Nat) (p q : Pattern)
deriving Repr, DecidableEq

/-- The lower case of a character, where case does not matter. -/
def Folding.lower : Folding → Char → Char
  | .exact, c => c
  | .ascii, c => c.toLower
  | .all, c => Text.lower c

/-- The characters that match where `c` does. -/
def Folding.variants : Folding → Char → List Char
  | .exact, c => [c]
  | .ascii, c => [c.toLower, c.toUpper]
  | .all, c => (Text.lowerClass (Text.lower c)).flatMap Text.withLower

def Folding.same : Folding → Char → Char → Bool
  | .all, c, d => (Text.lowerClass (Text.lower d)).contains (Text.lower c)
  | fold, c, d => fold.lower c == fold.lower d

namespace Pattern

/-- A character of a word of any script, or of a word in ASCII. -/
def isWordChar (ascii : Bool) (c : Char) : Bool :=
  Text.isWordChar c && !(ascii && 128 ≤ c.toNat)

def hasItem : CharItem → Char → Bool
  | .one d, c => c == d
  | .span lo hi, c => lo ≤ c && c ≤ hi
  | .digit negated ascii, c => (if ascii then c.isDigit else Text.isDigit c) != negated
  | .space negated ascii, c =>
    (if ascii then (9 ≤ c.toNat && c.toNat ≤ 13) || c == ' ' else Text.isBlank c) != negated
  | .word negated ascii, c => isWordChar ascii c != negated

/-- Where a match stands: the characters passed in the whole text, latest first,
the characters left, how many were passed since the match began, the texts of
the groups closed so far, latest first, and the group closed last. -/
structure Spot where
  before : List Char
  rest : List Char
  count : Nat
  groups : List (Nat × List Char)
  last : Option Nat
deriving Repr, DecidableEq

def Spot.advance (s : Spot) (c : Char) (rest : List Char) : Spot :=
  { s with before := c :: s.before, rest, count := s.count + 1 }

/-- Pass one character that satisfies `ok`. -/
def Spot.pass? (ok : Char → Bool) (s : Spot) : Option Spot :=
  match s.rest with
  | c :: rest => if ok c then some (s.advance c rest) else none
  | [] => none

/-- Membership in a class.  Single characters and ranges have `c` if they have one of
its variants. -/
def setHas (fold : Folding) (negated : Bool) (items : List CharItem) (c : Char) : Bool :=
  let variants := fold.variants c
  (items.any fun i => match i with
    | .one _ | .span .. => variants.any (hasItem i)
    | _ => hasItem i (fold.lower c)) != negated

/-- Whether a position test holds.  An empty text has no word edges, nor places
that are none. -/
def Spot.holds (s : Spot) : Anchor → Bool
  | .textStart => s.before.isEmpty
  | .textEnd => s.rest.isEmpty
  | .lastLineEnd => s.rest.isEmpty || s.rest == ['\n']
  | .lineStart => s.before.isEmpty || s.before.head? == some '\n'
  | .lineEnd => s.rest.isEmpty || s.rest.head? == some '\n'
  | .wordEdge negated ascii =>
    let b := (s.before.head?.map (isWordChar ascii)).getD false
    let a := (s.rest.head?.map (isWordChar ascii)).getD false
    (a != b) != negated && !(s.before.isEmpty && s.rest.isEmpty)

def Spot.passAll? (fold : Folding) : List Char → Spot → Option Spot
  | [], s => some s
  | d :: word, s =>
    (s.pass? fun c => fold.lower c == fold.lower d).bind (passAll? fold word)

def Spot.back? : Nat → Spot → Option Spot
  | 0, s => some s
  | n + 1, s =>
    match s.before with
    | c :: before => back? n { s with before, rest := c :: s.rest }
    | [] => none

/-- `n` turns of `body`, then `k`. -/
def mandatory (body : (Spot → Option Spot) → Spot → Option Spot) (k : Spot → Option Spot) :
    Nat → Spot → Option Spot
  | 0, s => k s
  | n + 1, s => body (mandatory body k n) s

/-- Up to `max` turns of `body`, then `k`.  A turn that does not move on is the last
one.  The turns that move on are fewer than `left`. -/
def optional (body : (Spot → Option Spot) → Spot → Option Spot) (lazily : Bool)
    (k : Spot → Option Spot) : Nat → Option Nat → Spot → Option Spot
  | 0, _, s => k s
  | left + 1, max, s =>
    if max == some 0 then k s
    else
      let again := fun (_ : Unit) =>
        body (fun t => if t.count == s.count then k t
          else optional body lazily k left (max.map (· - 1)) t) s
      if lazily then (k s).orElse again else (again ()).orElse fun _ => k s

/-- `n` turns, none of which is taken back. -/
def finalTurns (turn : Spot → Option Spot) : Nat → Spot → Option Spot
  | 0, s => some s
  | n + 1, s => (turn s).bind (finalTurns turn n)

/-- As many turns as there can be up to `max`, none of which is taken back. -/
def finalRest (turn : Spot → Option Spot) : Nat → Option Nat → Spot → Spot
  | 0, _, s => s
  | left + 1, max, s =>
    if max == some 0 then s
    else match turn s with
      | none => s
      | some t =>
        if t.count == s.count then t else finalRest turn left (max.map (· - 1)) t

/-- Match at a spot and go on with `k`. -/
def run : Pattern → (Spot → Option Spot) → Spot → Option Spot
  | .empty, k, s => k s
  | .char fold d, k, s => (s.pass? (fold.same · d)).bind k
  | .any lineFeed, k, s => (s.pass? fun c => lineFeed || c != '\n').bind k
  | .set fold negated items, k, s => (s.pass? (setHas fold negated items)).bind k
  | .seq p q, k, s => p.run (q.run k) s
  | .alt p q, k, s => (p.run k s).orElse fun _ => q.run k s
  | .rep min max greed p, k, s =>
    let more := max.map (· - min)
    match greed with
    | .most => mandatory p.run (fun t => optional p.run false k (t.rest.length + 1) more t) min s
    | .fewest => mandatory p.run (fun t => optional p.run true k (t.rest.length + 1) more t) min s
    | .possessive =>
      (finalTurns (p.run some) min s).bind fun t =>
        k (finalRest (p.run some) (t.rest.length + 1) more t)
  | .group index p, k, s =>
    p.run (fun t => k { t with
      groups := (index, s.rest.take (t.count - s.count)) :: t.groups
      last := some index }) s
  | .look behind negated p, k, s =>
    let found := match behind with
      | none => p.run some s
      | some n => (s.back? n).bind fun b =>
        p.run (fun t => if t.count == b.count + n then some t else none) b
    if negated then (if found.isSome then none else k s)
    else found.bind fun t => k { s with groups := t.groups, last := t.last }
  | .atomic p, k, s => (p.run some s).bind k
  | .anchor a, k, s => if s.holds a then k s else none
  | .backref fold index, k, s =>
    match s.groups.find? (·.1 == index) with
    | some (_, word) => (s.passAll? fold word).bind k
    | none => none
  | .choice index p q, k, s =>
    if s.groups.any (·.1 == index) then p.run k s else q.run k s

/-- Match at the beginning of the rest of a text, given the characters before
it: the number of characters matched and the group closed last. -/
def matchAt (p : Pattern) (before rest : List Char) : Option (Nat × Option Nat) :=
  (p.run some { before, rest, count := 0, groups := [], last := none }).map fun t =>
    (t.count, t.last)

def acceptsEmpty (p : Pattern) : Bool := (p.matchAt [] []).isSome

def seqs : List Pattern → Pattern
  | [] => .empty
  | [p] => p
  | p :: ps => .seq p (seqs ps)

/-- The ordered alternatives of a list of patterns. -/
def alts : List Pattern → Pattern
  | [] => .empty
  | [p] => p
  | p :: ps => .alt p (alts ps)

/-- The text `s`, character by character. -/
def word (s : String) : Pattern := seqs (s.toList.map (.char .exact))

/-- Any number of turns, as many as possible. -/
def star (p : Pattern) : Pattern := .rep 0 none .most p

/-- One or more turns, as many as possible. -/
def plus (p : Pattern) : Pattern := .rep 1 none .most p

/-- At most one turn, one if possible. -/
def opt (p : Pattern) : Pattern := .rep 0 (some 1) .most p

/-- The fewest and the most characters that a match can have; none for no bound. -/
abbrev Width := Nat × Option Nat

def Width.add (a b : Width) : Width := (a.1 + b.1, do return (← a.2) + (← b.2))

def Width.join (a b : Width) : Width := (min a.1 b.1, do return max (← a.2) (← b.2))

/-- A width over and over.  Nothing stays nothing, however often. -/
def Width.times (lo : Nat) (hi : Option Nat) (a : Width) : Width :=
  (lo * a.1, if hi == some 0 || a.2 == some 0 then some 0 else do return (← hi) * (← a.2))

def width (groups : List (Nat × Width)) : Pattern → Width
  | .empty | .look .. | .anchor _ => (0, some 0)
  | .char .. | .any _ | .set .. => (1, some 1)
  | .seq p q => (p.width groups).add (q.width groups)
  | .alt p q | .choice _ p q => (p.width groups).join (q.width groups)
  | .rep lo hi _ p => (p.width groups).times lo hi
  | .group _ p | .atomic p => p.width groups
  | .backref _ index => (groups.lookup index).getD (0, none)

end Pattern

end QuadLang
