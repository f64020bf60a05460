/-
Reading regular expressions.

`Pattern.read flags text` reads the written form: characters, escapes, classes
in brackets, repetitions with their lazy and possessive variants, groups with
and without number and name, choices by a group, look-around, comments and local
flags.  In verbose
mode blanks outside classes are skipped and `#` begins a comment.  A fault has a
text and, in most cases, the position where the reader noticed it.

Design notes: the reader looks one item ahead, where an item is a character or
a backslash with the character after it; a backslash at the very end is noticed
as soon as it becomes the next item.  Every step of the reader consumes an item
or closes a group, so the length of the text bounds the recursion.
-/
import QuadLang.Number.Numeral
import QuadLang.Pattern.Basic
import QuadLang.Text.Quoted

namespace QuadLang.Pattern

open QuadLang.Text

structure Flags where
  ignoreCase : Bool := false
  multiline : Bool := false
  dotAll : Bool := false
  verbose : Bool := false
  ascii : Bool := false
deriving Repr, DecidableEq

/-- The flags coded in the bits of a number: 2 ignores case, 8 is multiline, 16
lets the dot match line feeds, 64 is verbose and 256 restricts classes to
ASCII. -/
def Flags.ofNat (n : Nat) : Flags where
  ignoreCase := n.testBit 1
  multiline := n.testBit 3
  dotAll := n.testBit 4
  verbose := n.testBit 6
  ascii := n.testBit 8

def Flags.folding (flags : Flags) : Folding :=
  if !flags.ignoreCase then .exact else if flags.ascii then .ascii else .all

structure Fault where
  text : String
  position : Option Nat
deriving Repr, DecidableEq

/-- A fault's message for the pattern it was found in.  In a pattern of several
lines the position is given by line and column too. -/
def Fault.message (f : Fault) (pattern : String) : String :=
  match f.position with
  | none => f.text
  | some pos =>
    let base := f.text ++ " at position " ++ toString pos
    let cs := pattern.toList
    if cs.contains '\n' then
      let before := cs.take pos
      let line := before.count '\n' + 1
      let column := (before.reverse.takeWhile (· != '\n')).length + 1
      base ++ " (line " ++ toString line ++ ", column " ++ toString column ++ ")"
    else base

abbrev GroupNames := List (String × Nat)

structure Reader where
  rest : List Char
  position : Nat
  groups : Nat := 0
  /-- The groups that are closed, with their widths. -/
  closed : List (Nat × Width) := []
  names : GroupNames := []
  /-- Inside a look-behind: the number of groups opened before it. -/
  behind : Option Nat := none
  /-- The groups that choices go by, and where they were named. -/
  chosen : List (Nat × Nat) := []
  /-- Whether every look-behind has a fixed width. -/
  fixedWidth : Bool := true

abbrev ReadM := StateT Reader (Except Fault)

namespace Reader

def faultBack {α : Type} (text : String) (back : Int) : ReadM α := fun r =>
  .error { text, position := some ((r.position : Int) - back).toNat }

def fault {α : Type} (text : String) : ReadM α := faultBack text 0

def peek : ReadM (Option (List Char)) := fun r =>
  .ok (match r.rest with
    | '\\' :: c :: _ => some ['\\', c]
    | c :: _ => some [c]
    | [] => none, r)

/-- Fail when a lone backslash is next. -/
def checkEnd : ReadM Unit := fun r =>
  if r.rest == ['\\'] then .error { text := "bad escape (end of pattern)", position := some r.position }
  else .ok ((), r)

def take : ReadM (Option (List Char)) := do
  let item ← peek
  let n := (item.getD []).length
  modify fun r => { r with rest := r.rest.drop n, position := r.position + n }
  checkEnd
  return item

/-- Take the next item if it is `c`. -/
def accept (c : Char) : ReadM Bool := do
  if (← peek) == some [c] then
    discard take
    return true
  return false

def takeUpTo (p : Char → Bool) : Nat → ReadM (List Char)
  | 0 => return []
  | n + 1 => do
    match ← peek with
    | some [c] =>
      if p c then
        discard take
        return c :: (← takeUpTo p n)
      return []
    | _ => return []

/-- Take the items before `stop`, and `stop`; the name says what is expected. -/
def takeUntil (stop : Char) (name : String) : Nat → List Char → ReadM (List Char)
  | 0, acc => return acc
  | fuel + 1, acc => do
    match ← take with
    | none =>
      if acc.isEmpty then fault ("missing " ++ name)
      else faultBack ("missing " ++ String.singleton stop ++ ", unterminated name") acc.length
    | some item =>
      if item == [stop] then
        if acc.isEmpty then faultBack ("missing " ++ name) 1
        else return acc
      else takeUntil stop name fuel (acc ++ item)

end Reader

open Reader

def isName : List Char → Bool
  | [] => false
  | c :: cs => isLetter c && cs.all isNamePart

def hexValue (c : Char) : Nat :=
  if c.isDigit then c.toNat - '0'.toNat else c.toLower.toNat - 'a'.toNat + 10

def isHex (c : Char) : Bool := c.isDigit || ('a' ≤ c.toLower && c.toLower ≤ 'f')

def isOctal (c : Char) : Bool := '0' ≤ c && c ≤ '7'

/-- The number written by digits of a base. -/
def ofBase (base : Nat) (ds : List Char) : Nat := ds.foldl (fun n c => base * n + hexValue c) 0

def namedEscape? : Char → Option Char
  | 'a' => some '\x07'
  | 'f' => some '\x0c'
  | 'n' => some '\n'
  | 'r' => some '\r'
  | 't' => some '\t'
  | 'v' => some '\x0b'
  | '\\' => some '\\'
  | _ => none

def classEscape? (ascii : Bool) : Char → Option CharItem
  | 'd' => some (.digit false ascii)
  | 'D' => some (.digit true ascii)
  | 's' => some (.space false ascii)
  | 'S' => some (.space true ascii)
  | 'w' => some (.word false ascii)
  | 'W' => some (.word true ascii)
  | _ => none

def anchorEscape? (ascii : Bool) : Char → Option Anchor
  | 'A' => some .textStart
  | 'Z' => some .textEnd
  | 'b' => some (.wordEdge false ascii)
  | 'B' => some (.wordEdge true ascii)
  | _ => none

/-- A character given by a fixed number of hexadecimal digits. -/
def readHexEscape (c : Char) (width : Nat) : ReadM Char := do
  let ds ← takeUpTo isHex width
  if ds.length != width then
    faultBack ("incomplete escape \\" ++ String.ofList (c :: ds)) (ds.length + 2)
  else return Char.ofNat (ofBase 16 ds)

/-- A character given by its name; no character has one here. -/
def readNamedEscape {α : Type} : ReadM α := do
  if !(← accept '\x7b') then fault "missing \x7b"
  let name ← takeUntil '\x7d' "character name" ((← get).rest.length + 1) []
  faultBack ("undefined character name " ++ quote (String.ofList name)) (name.length + 4)

def readClassEscape (flags : Flags) (c : Char) : ReadM CharItem := do
  if c == 'b' then return .one '\x08'
  if let some d := namedEscape? c then return .one d
  if let some item := classEscape? flags.ascii c then return item
  if c == 'x' then return .one (← readHexEscape c 2)
  if c == 'u' then return .one (← readHexEscape c 4)
  if c == 'U' then return .one (← readHexEscape c 8)
  if c == 'N' then readNamedEscape
  if isOctal c then
    let ds := c :: (← takeUpTo isOctal 2)
    let n := ofBase 8 ds
    if n > 255 then
      faultBack ("octal escape value \\" ++ String.ofList ds ++ " outside of range 0-0o377") (ds.length + 1)
    else return .one (Char.ofNat n)
  if c.isAlphanum then faultBack ("bad escape \\" ++ String.singleton c) 2
  else return .one c

/-- Refuse a group that is open. -/
def checkClosed (index : Nat) (back : Int) : ReadM Unit := do
  if ((← get).closed.lookup index).isNone then faultBack "cannot refer to an open group" back

/-- Refuse a group that is open or begun in the same look-behind, when in one. -/
def checkBehind (index : Nat) : ReadM Unit := do
  match (← get).behind with
  | some n =>
    checkClosed index 0
    if n < index then fault "cannot refer to group defined in the same lookbehind subpattern"
  | none => return

/-- Refuse a reference to a group that is open or begun in the same look-behind. -/
def checkReference (index : Nat) (back : Int) : ReadM Unit := do
  checkClosed index back
  checkBehind index

/-- A reference by number, or a character by three octal digits. -/
def readNumberEscape (flags : Flags) (c : Char) : ReadM Pattern := do
  let second ← takeUpTo Char.isDigit 1
  let third ← if isOctal c && !second.isEmpty && second.all isOctal then takeUpTo isOctal 1 else pure []
  let ds := c :: second ++ third
  if !third.isEmpty then
    let n := ofBase 8 ds
    if n > 255 then
      faultBack ("octal escape value \\" ++ String.ofList ds ++ " outside of range 0-0o377") (ds.length + 1)
    else return .char flags.folding (Char.ofNat n)
  else
    let index := ofBase 10 ds
    if index ≤ (← get).groups then
      checkReference index (ds.length + 1)
      return .backref flags.folding index
    else faultBack ("invalid group reference " ++ toString index) ds.length

/-- An escape outside classes, after its backslash; the flag says whether it is
a position test. -/
def readEscape (flags : Flags) (c : Char) : ReadM (Pattern × Bool) := do
  if let some a := anchorEscape? flags.ascii c then return (.anchor a, true)
  if let some item := classEscape? flags.ascii c then return (.set .exact false [item], false)
  if let some d := namedEscape? c then return (.char flags.folding d, false)
  if c == 'x' then return (.char flags.folding (← readHexEscape c 2), false)
  if c == 'u' then return (.char flags.folding (← readHexEscape c 4), false)
  if c == 'U' then return (.char flags.folding (← readHexEscape c 8), false)
  if c == 'N' then readNamedEscape
  if c == '0' then
    return (.char flags.folding (Char.ofNat (ofBase 8 (← takeUpTo isOctal 2))), false)
  if c.isDigit then return (← readNumberEscape flags c, false)
  if c.isAlpha then faultBack ("bad escape \\" ++ String.singleton c) 2
  else return (.char flags.folding c, false)

def readMember (flags : Flags) : List Char → ReadM CharItem
  | ['\\', c] => readClassEscape flags c
  | c :: _ => return .one c
  | [] => return .one ' '

/-- The members of a class up to its closing bracket; `here` is the position of
the opening one. -/
def readMembers (flags : Flags) (here : Nat) : Nat → List CharItem → ReadM (List CharItem)
  | 0, acc => return acc.reverse
  | fuel + 1, acc => do
    let unterminated {α : Type} : ReadM α := do
      faultBack "unterminated character set" ((← get).position - here)
    match ← take with
    | none => unterminated
    | some this =>
      if this == [']'] && !acc.isEmpty then return acc.reverse
      let first ← readMember flags this
      if ← accept '-' then
        match ← take with
        | none => unterminated
        | some [']'] => return (.one '-' :: first :: acc).reverse
        | some that =>
          let second ← readMember flags that
          let bad {α : Type} : ReadM α :=
            faultBack ("bad character range " ++ String.ofList this ++ "-" ++ String.ofList that)
              (this.length + 1 + that.length)
          match first, second with
          | .one lo, .one hi =>
            if hi < lo then bad else readMembers flags here fuel (.span lo hi :: acc)
          | _, _ => bad
      else readMembers flags here fuel (first :: acc)

/-- The bounds of a repetition in braces; none when the brace is a plain
character, and then nothing is taken. -/
def readBounds (here : Nat) : ReadM (Option (Nat × Option Nat)) := do
  let saved ← get
  if (← peek) == some ['\x7d'] then return none
  let lo ← takeUpTo Char.isDigit saved.rest.length
  let hi ← if ← accept ',' then takeUpTo Char.isDigit saved.rest.length else pure lo
  let comma := hi.isEmpty || hi != lo
  if !(← accept '\x7d') then
    modify fun _ => saved
    return none
  let min := ofBase 10 lo
  let max := if hi.isEmpty then none else some (ofBase 10 hi)
  if comma && max.any (· < min) then
    faultBack "min repeat greater than max repeat" ((← get).position - here)
  return some (min, max)

inductive ItemKind where
  | plain
  | position
  | repetition
deriving DecidableEq

abbrev Items := List (Pattern × ItemKind)

def Items.pattern (items : Items) : Pattern := seqs (items.reverse.map (·.1))

/-- Repeat the item read last; `here` is the position after the sign, which has
`width` characters. -/
def readRepeat (items : Items) (here width min : Nat) (max : Option Nat) : ReadM Items := do
  let back : Int := ((← get).position : Int) - here + width
  match items with
  | [] => faultBack "nothing to repeat" back
  | (p, kind) :: items =>
    if kind == .position then faultBack "nothing to repeat" back
    if kind == .repetition then faultBack "multiple repeat" back
    if ← accept '?' then return (.rep min max .fewest p, .repetition) :: items
    if ← accept '+' then return (.rep min max .possessive p, .repetition) :: items
    return (.rep min max .most p, .repetition) :: items

def Flags.put (flags : Flags) (on : Bool) : Char → Option Flags
  | 'i' => some { flags with ignoreCase := on }
  | 'm' => some { flags with multiline := on }
  | 's' => some { flags with dotAll := on }
  | 'x' => some { flags with verbose := on }
  | 'a' => if on then some { flags with ascii := true } else none
  | 'u' => if on then some { flags with ascii := false } else none
  | _ => none

def isFlag (c : Char) : Bool := ['i', 'L', 'm', 's', 'x', 'a', 't', 'u'].contains c

/-- Read flag letters up to the colon; `on` is false after a minus. -/
def readFlags (start : Nat) : Nat → Bool → Flags → Char → ReadM Flags
  | 0, _, flags, _ => return flags
  | fuel + 1, on, flags, c => do
    match flags.put on c with
    | none =>
      if c == 'L' && on then fault "bad inline flags: cannot use 'L' flag with a str pattern"
      else if on then faultBack "bad inline flags: cannot turn on global flag" 1
      else fault "bad inline flags: cannot turn off flags 'a', 'u' and 'L'"
    | some flags =>
      match ← take with
      | none => fault (if on then "missing -, : or )" else "missing :")
      | some [':'] => return flags
      | some [')'] =>
        if on then
          faultBack "global flags not at the start of the expression" ((← get).position - start)
        else faultBack "missing :" 1
      | some ['-'] =>
        if on then
          match ← take with
          | none => fault "missing flag"
          | some [d] =>
            if isFlag d then readFlags start fuel false flags d
            else faultBack (if d.isAlpha then "unknown flag" else "missing flag") 1
          | some item => faultBack "missing flag" item.length
        else faultBack "missing :" 1
      | some [d] =>
        if isFlag d then readFlags start fuel on flags d
        else faultBack (if d.isAlpha then "unknown flag" else if on then "missing -, : or )" else "missing :") 1
      | some item => faultBack (if on then "missing -, : or )" else "missing :") item.length

def openGroup (name : Option (List Char)) : ReadM Nat := do
  let r ← get
  let index := r.groups + 1
  modify fun r => { r with groups := index }
  if let some cs := name then
    let key := String.ofList cs
    if let some (_, old) := r.names.find? (·.1 == key) then
      faultBack ("redefinition of group name " ++ quote key ++ " as group " ++ toString index ++
        "; was group " ++ toString old) (cs.length + 1)
    else modify fun r => { r with names := r.names ++ [(key, index)] }
  return index

def closeGroup (index : Nat) (p : Pattern) : ReadM Unit :=
  modify fun r => { r with closed := (index, p.width r.closed) :: r.closed }

/-- Skip a comment up to the end of its line. -/
def skipComment : Nat → ReadM Unit
  | 0 => return
  | fuel + 1 => do
    match ← take with
    | none => return
    | some item => if item == ['\n'] then return else skipComment fuel

def skipCommentGroup (start : Nat) : Nat → ReadM Unit
  | 0 => return
  | fuel + 1 => do
    if (← peek).isNone then faultBack "missing ), unterminated comment" ((← get).position - start)
    if (← take) == some [')'] then return else skipCommentGroup start fuel

/-- No group has such a number. -/
def groupLimit : Nat := 1073741823

/-- What the text after an opening parenthesis announces. -/
inductive Opening where
  | capture (name : Option (List Char))
  | plain (flags : Flags)
  | atomic
  | look (behind negated : Bool)
  | reference (index : Nat)
  | choice (index : Nat)
  | comment

/-- A group name, which has just been taken up to its end. -/
def checkName (cs : List Char) : ReadM Unit :=
  if isName cs then return
  else faultBack ("bad character in group name " ++ quote (String.ofList cs)) (cs.length + 1)

/-- The group that a choice goes by, given its name or number.  A number may come
before its group, and is checked at the end. -/
def readChooser (name : List Char) : ReadM Nat := do
  let text := String.ofList name
  let back := name.length + 1
  if isName name then
    match (← get).names.find? (·.1 == text) with
    | none => faultBack ("unknown group name " ++ quote text) back
    | some (_, index) => return index
  else match Number.readInt text with
    | .ok (.ofNat 0) => faultBack "bad group number" back
    | .ok (.ofNat index) =>
      if index ≥ groupLimit then faultBack ("invalid group reference " ++ toString index) back
      modify fun r =>
        if r.chosen.any (·.1 == index) then r
        else { r with chosen := r.chosen ++ [(index, r.position - back)] }
      return index
    | _ => faultBack ("bad character in group name " ++ quote text) back

/-- Read what follows an opening parenthesis, up to the contents of the group. -/
def readOpening (flags : Flags) (start : Nat) : ReadM Opening := do
  if !(← accept '?') then return .capture none
  let size := (← get).rest.length
  match ← take with
  | none => fault "unexpected end of pattern"
  | some ['P'] =>
    if ← accept '<' then
      let name ← takeUntil '>' "group name" (size + 1) []
      checkName name
      return .capture (some name)
    else if ← accept '=' then
      let name ← takeUntil ')' "group name" (size + 1) []
      checkName name
      match (← get).names.find? (·.1 == String.ofList name) with
      | none => faultBack ("unknown group name " ++ quote (String.ofList name)) (name.length + 1)
      | some (_, index) =>
        checkReference index (name.length + 1)
        return .reference index
    else
      match ← take with
      | none => fault "unexpected end of pattern"
      | some item => faultBack ("unknown extension ?P" ++ String.ofList item) (item.length + 2)
  | some ['('] =>
    let index ← readChooser (← takeUntil ')' "group name" (size + 1) [])
    checkBehind index
    return .choice index
  | some [':'] => return .plain flags
  | some ['>'] => return .atomic
  | some ['#'] => return .comment
  | some ['='] => return .look false false
  | some ['!'] => return .look false true
  | some ['<'] =>
    match ← take with
    | none => fault "unexpected end of pattern"
    | some ['='] => return .look true false
    | some ['!'] => return .look true true
    | some item => faultBack ("unknown extension ?<" ++ String.ofList item) (item.length + 2)
  | some ['-'] =>
    match ← take with
    | none => fault "missing flag"
    | some [d] =>
      if isFlag d then return .plain (← readFlags start (size + 1) false flags d)
      else faultBack (if d.isAlpha then "unknown flag" else "missing flag") 1
    | some item => faultBack "missing flag" item.length
  | some [c] =>
    if isFlag c then return .plain (← readFlags start (size + 1) true flags c)
    else faultBack ("unknown extension ?" ++ String.singleton c) 2
  | some item => faultBack ("unknown extension ?" ++ String.ofList item) (item.length + 1)

/-- A look-around of a pattern; looking behind needs a fixed width, which is required
only when the whole pattern has been read. -/
def lookAround (behind negated : Bool) (p : Pattern) : ReadM Pattern := do
  if !behind then return .look none negated p
  let (lo, hi) := p.width (← get).closed
  modify fun r => { r with fixedWidth := r.fixedWidth && hi == some lo }
  return .look (some lo) negated p

/-- Enter or leave a look-behind. -/
def setBehind (n : Option Nat) : ReadM Unit := modify fun r => { r with behind := n }

mutual

def readAlternatives (fuel : Nat) (flags : Flags) : ReadM Pattern :=
  match fuel with
  | 0 => return .empty
  | fuel + 1 => do
    let p ← readItems fuel flags []
    if ← accept '|' then return .alt p (← readAlternatives fuel flags)
    else return p
termination_by structural fuel

def readItems (fuel : Nat) (flags : Flags) (items : Items) : ReadM Pattern :=
  match fuel with
  | 0 => return items.pattern
  | fuel + 1 => do
    match ← peek with
    | none | some ['|'] | some [')'] => return items.pattern
    | some this =>
      discard take
      if flags.verbose && [[' '], ['\t'], ['\n'], ['\r'], ['\x0b'], ['\x0c']].contains this then
        readItems fuel flags items
      else if flags.verbose && this == ['#'] then
        skipComment (fuel + 1)
        readItems fuel flags items
      else
        let here := (← get).position
        match this with
        | ['\\', c] =>
          let (p, isPosition) ← readEscape flags c
          readItems fuel flags ((p, if isPosition then .position else .plain) :: items)
        | ['['] =>
          let negated ← accept '^'
          let members ← readMembers flags (here - 1) ((← get).rest.length + 1) []
          readItems fuel flags ((.set flags.folding negated members, .plain) :: items)
        | ['?'] => readItems fuel flags (← readRepeat items here 1 0 (some 1))
        | ['*'] => readItems fuel flags (← readRepeat items here 1 0 none)
        | ['+'] => readItems fuel flags (← readRepeat items here 1 1 none)
        | ['\x7b'] =>
          match ← readBounds here with
          | none => readItems fuel flags ((.char flags.folding '\x7b', .plain) :: items)
          | some (min, max) => readItems fuel flags (← readRepeat items here 1 min max)
        | ['.'] => readItems fuel flags ((.any flags.dotAll, .plain) :: items)
        | ['^'] =>
          let a := if flags.multiline then Anchor.lineStart else .textStart
          readItems fuel flags ((.anchor a, .position) :: items)
        | ['$'] =>
          let a := if flags.multiline then Anchor.lineEnd else .lastLineEnd
          readItems fuel flags ((.anchor a, .position) :: items)
        | ['('] => readItems fuel flags (← readGroup fuel flags (here - 1) items)
        | c :: _ => readItems fuel flags ((.char flags.folding c, .plain) :: items)
        | [] => return items.pattern
termination_by structural fuel

def readGroup (fuel : Nat) (flags : Flags) (start : Nat) (items : Items) : ReadM Items :=
  match fuel with
  | 0 => return items
  | fuel + 1 => do
    let close : ReadM Unit := do
      if !(← accept ')') then
        faultBack "missing ), unterminated subpattern" ((← get).position - start)
    match ← readOpening flags start with
    | .comment =>
      skipCommentGroup start ((← get).rest.length + 1)
      return items
    | .reference index => return (.backref flags.folding index, .plain) :: items
    | .choice index =>
      let p ← readItems fuel flags []
      let q ← if ← accept '|' then readItems fuel flags [] else pure .empty
      if (← peek) == some ['|'] then fault "conditional backref with more than two branches"
      close
      return (.choice index p q, .plain) :: items
    | .capture name =>
      let index ← openGroup name
      let p ← readAlternatives fuel flags
      close
      closeGroup index p
      return (.group index p, .plain) :: items
    | .plain inner =>
      let p ← readAlternatives fuel inner
      close
      return (p, .plain) :: items
    | .atomic =>
      let p ← readAlternatives fuel flags
      close
      return (.atomic p, .plain) :: items
    | .look behind negated =>
      let outer := (← get).behind
      if behind && outer.isNone then setBehind (some (← get).groups)
      let p ← readAlternatives fuel flags
      if behind then setBehind outer
      close
      return (← lookAround behind negated p, .plain) :: items
termination_by structural fuel

end

structure Compiled where
  pattern : Pattern
  names : GroupNames

def read (flags : Flags) (text : String) : Except Fault Compiled :=
  let cs := text.toList
  let whole : ReadM Pattern := do
    checkEnd
    let p ← readAlternatives (4 * cs.length + 8) flags
    if (← peek) == some [')'] then fault "unbalanced parenthesis"
    let r ← get
    if let some (index, position) := r.chosen.find? (r.groups < ·.1) then
      throw ⟨"invalid group reference " ++ toString index, some position⟩
    if !r.fixedWidth then throw ⟨"look-behind requires fixed-width pattern", none⟩
    return p
  match whole { rest := cs, position := 0 } with
  | .ok (pattern, r) => .ok { pattern, names := r.names }
  | .error f => .error f

end QuadLang.Pattern
