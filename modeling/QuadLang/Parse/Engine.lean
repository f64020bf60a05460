/-
The parser at work.

`Parse.step` shifts a token, completes a rule or deals with an error.  An error
is reported to the handler unless another one was reported less than three
symbols before.  Then symbols are taken from the stack until the terminal `error`
can be shifted, and tokens are dropped until one fits after it.

Design notes: the stacks of states and of symbols are kept apart, since a failing
rule without symbols takes a state and no symbol away.
-/
import QuadLang.Parse.Basic
import QuadLang.Text.Blank

namespace QuadLang

/-- Whether a value can be shown: every token in it has a line. -/
def Datum.showable : Datum → Bool
  | .token _ value line _ => line.isSome && value.showable
  | .list items | .tuple items => showableAll items
  | _ => true
where
  showableAll : List Datum → Bool
    | [] => true
    | x :: rest => x.showable && showableAll rest

namespace Parse

/-- The number of symbols to shift before errors are reported again. -/
def errorDistance : Nat := 3

def log (p : Parser) (line : Unit → Parse String) : Parse Unit := do
  if p.debug then
    let s ← line ()
    modify fun st => { st with notes := .logged s :: st.notes }

def warn (text : String) : Parse Unit :=
  modify fun st => { st with notes := .warned text :: st.notes }

def note (d : Datum) : Parse Unit := modify fun st => { st with trace := d :: st.trace }

def shown (write : Datum → String) (d : Datum) : Parse String :=
  if d.showable then return write d else throw (.noLine true)

def valueOf (s : ParseSymbol) : Parse Datum :=
  match s.value with
  | some v => return v
  | none => throw .noValue

def lineOf (s : ParseSymbol) : Parse Int :=
  match s.line with
  | some n => return n
  | none => throw (.noLine s.isToken)

def positionOf (s : ParseSymbol) : Parse Int :=
  match s.position with
  | some n => return n
  | none => throw (.noPosition s.isToken)

def readToken : Parse (Option ParseSymbol) := do
  let st ← get
  match st.tokens with
  | [] => return none
  | t :: rest =>
    set { st with
      tokens := rest
      lastLine := t.line.getD st.lastLine
      lastPosition := t.position.getD st.lastPosition }
    return some t

def look : Parse ParseSymbol := do
  let st ← get
  match st.ahead with
  | some s => return s
  | none =>
    let next ← match st.pushed with
      | [] => readToken
      | s :: rest => do set { st with pushed := rest }; pure s
    let s := next.getD ParseSymbol.endSymbol
    modify fun st => { st with ahead := some s }
    return s

def stackText : Parse String := do
  let st ← get
  let ahead ← match st.ahead with
    | none => pure "None"
    | some s => shown Datum.shown s.datum
  let line := Text.join " " (st.symbols.dropLast.reverse.map (·.kind)) ++ " . " ++ ahead
  return String.ofList (line.toList.dropWhile Text.isBlank)

/-- The symbol at a place of the symbols that a rule is about. -/
def entry (symbols : List ParseSymbol) (i : Nat) : Parse ParseSymbol :=
  match symbols[i]? with
  | some s => return s
  | none => throw .noEntry

def pair (a b : Int) : Datum := .tuple [.int a, .int b]

/-- The places of a symbol: line, position, lines and positions. -/
def places (s : ParseSymbol) : Datum :=
  let line := s.line.getD 0
  let position := s.position.getD 0
  .list [.int line, .int position, pair line (s.lastLine.getD line),
    pair position (s.lastPosition.getD position)]

def tree (name : String) (args : List ParseSymbol) : Parse Datum := do
  return .list (.text name :: (← args.mapM valueOf))

def act (action : RuleAction) (s : ParseSymbol) (args : List ParseSymbol) :
    Parse (Option ParseSymbol) := do
  let name := s.kind
  let made := fun (v : Datum) => ({ s with value := some v } : ParseSymbol)
  let result ← match action with
    | .fail => do
      note (.list [.text "fail", .text name])
      return none
    | .tree => do pure (made (← tree name args))
    | .first => do pure (made (← valueOf (← entry args 0)))
    | .count => pure (made (.int args.length))
    | .nothing => pure s
    | .span => do
      let vs ← args.mapM valueOf
      pure (made (.list (.text name :: (s :: args).map places ++ vs)))
    | .setPlace => do
      let first ← entry args 0
      let s := { s with line := some (first.line.getD 0), position := some (first.position.getD 0 + 100) }
      pure { s with value := some (← tree name args) }
    | .before k => do
      let v ← valueOf (← entry (← get).symbols (k - 1))
      note (.list [.text "before", .list [v]])
      pure (made (.list [v]))
    | .recovered => do
      modify fun st => { st with errorOk := true }
      pure (made (← tree name args))
    | .slices => do
      let vs ← args.mapM valueOf
      pure (made (.list [.list (vs.take 1), .list vs]))
  note (.list [.text name, .int args.length])
  return some result

def topState (states : List Nat) : Parse Nat :=
  match states with
  | n :: _ => return n
  | [] => throw .noEntry

def moveFrom (p : Parser) (state : Nat) (name : String) : Parse Nat :=
  match p.tables.goto? state (p.tables.rules.names.idxOf name) with
  | some n => return n
  | none => throw (.noMove name)

def enterError (s : ParseSymbol) (putBack : List ParseSymbol) : Parse Unit := do
  let st ← get
  let states := st.states.drop 1
  set { st with
    pushed := st.ahead :: st.pushed
    symbols := putBack.reverse ++ st.symbols
    states
    ahead := some { s with kind := errorName, value := some (.text errorName) }
    errorCount := errorDistance
    errorOk := false }
  let state ← topState states
  modify fun st => { st with state }

/-- The symbol that a rule makes, with its place when tracking. -/
def placed (p : Parser) (name : String) (args : List ParseSymbol) : Parse ParseSymbol := do
  let s := ParseSymbol.plain name (some .none)
  if !p.tracking then return s
  match args with
  | [] =>
    let st ← get
    return { s with line := some st.lastLine, position := some st.lastPosition }
  | first :: _ =>
    let last := args.getLastD first
    let line ← lineOf first
    let position ← positionOf first
    let lastLine := last.lastLine.getD (← lineOf last)
    let lastPosition := last.lastPosition.getD (← positionOf last)
    return { s with
      line := some line, position := some position
      lastLine := some lastLine, lastPosition := some lastPosition }

def reduce (p : Parser) (number : Nat) : Parse Unit := do
  match p.rules[number]? with
  | none => throw .noEntry
  | some (rule, action) =>
    let n := rule.symbols.length
    let st ← get
    let args := (st.symbols.take n).reverse
    log p fun _ => do
      let texts ← args.mapM fun a => do shown Datum.tersely (← valueOf a)
      let target ← moveFrom p (← topState (st.states.drop n)) rule.name
      return "Action : Reduce rule [" ++ rule.text ++ "] with [" ++ Text.join "," texts ++
        "] and goto state " ++ toString target
    let s ← placed p rule.name args
    modify fun st => { st with symbols := st.symbols.drop n }
    match ← act action s args with
    | none => enterError s args.dropLast
    | some s =>
      modify fun st => { st with states := st.states.drop n }
      log p fun _ => do return "Result : " ++ (← shown Datum.briefly (← valueOf s))
      modify fun st => { st with symbols := s :: st.symbols }
      let state ← moveFrom p (← topState (← get).states) rule.name
      modify fun st => { st with state, states := state :: st.states }

def shift (p : Parser) (s : ParseSymbol) (state : Nat) : Parse Unit := do
  modify fun st => { st with states := state :: st.states, state }
  log p fun _ => return "Action : Shift and goto state " ++ toString state
  modify fun st => { st with
    symbols := s :: st.symbols, ahead := none, errorCount := st.errorCount - 1 }

/-- Tokens from the first after one of a kind. -/
def skipPast (kind : String) : List ParseSymbol → Parse Unit
  | [] => return
  | _ :: rest => do
    match ← readToken with
    | none => return
    | some t => if t.kind == kind then return else skipPast kind rest

/-- Tell the handler about an error: the symbol that it wants to go on with. -/
def handle (h : ErrorHandler) (culprit : Option ParseSymbol) : Parse (Option ParseSymbol) := do
  note (.list [.text "p_error", (culprit.map (·.datum)).getD .none])
  match h, culprit with
  | .stop, none => throw (.stopped "EOF")
  | .stop, some s => do
    let v ← valueOf s
    throw (.stopped (match v with | .text t => t | v => v.shown))
  | .nothing, _ | _, none => return none
  | .recovered, some _ =>
    modify fun st => { st with errorOk := true }
    return none
  | .sync kind, some _ =>
    skipPast kind (← get).tokens
    modify fun st => { st with errorOk := true }
    readToken
  | .restart, some _ =>
    modify fun st => { st with states := [0], symbols := [ParseSymbol.endSymbol] }
    return none
  | .insert kind, some s =>
    modify fun st => { st with errorOk := true }
    return some { s with
      kind, isToken := true, value := some (.text kind), lastLine := none, lastPosition := none }

/-- What comes after an error was reported. -/
inductive Report where
  /-- The handler has dealt with it. -/
  | handled
  | unhandled
  /-- The input has ended and nobody deals with it. -/
  | givenUp
deriving Repr, DecidableEq

/-- Report an error at the symbol ahead, if it is to be reported. -/
def report (p : Parser) (ahead : ParseSymbol) : Parse Report := do
  let st ← get
  if !(st.errorCount == 0 || st.errorOk) then
    set { st with errorCount := errorDistance }
    return .unhandled
  set { st with errorCount := errorDistance, errorOk := false }
  let culprit := if ahead.kind == endName then none else some ahead
  match p.handler, culprit with
  | some h, culprit => do
    let next ← handle h culprit
    if (← get).errorOk then
      modify fun st => { st with ahead := next }
      return .handled
    else return .unhandled
  | none, none => do
    warn "yacc: Parse error in input. EOF\n"
    return .givenUp
  | none, some s => do
    warn (if s.line.getD 0 != 0 then
        "yacc: Syntax error at line " ++ toString (s.line.getD 0) ++ ", token=" ++ s.kind ++ "\n"
      else "yacc: Syntax error, token=" ++ s.kind)
    return .unhandled

/-- The symbol `error` for a token that does not fit. -/
def errorAt (s : ParseSymbol) : ParseSymbol :=
  { ParseSymbol.plain errorName (some s.datum) with
    line := s.line, lastLine := s.line, position := s.position, lastPosition := s.position }

/-- Drop the symbol ahead, which stands after an error. -/
def dropAhead (p : Parser) (top ahead : ParseSymbol) (below : List ParseSymbol) : Parse Unit := do
  let top ← if p.tracking then do
      let line ← lineOf top
      let position ← positionOf top
      pure { top with
        lastLine := some (ahead.line.getD line), lastPosition := some (ahead.position.getD position) }
    else pure top
  modify fun st => { st with symbols := top :: below, ahead := none }

/-- Take a symbol from the stack, so that the error can be shifted before it. -/
def unwind (p : Parser) (ahead : ParseSymbol) : Parse Unit := do
  match (← get).symbols with
  | [] => throw .noEntry
  | s :: below =>
    modify fun st => { st with symbols := below }
    if p.tracking then
      let line ← lineOf s
      let position ← positionOf s
      modify fun st => { st with
        ahead := some { ahead with line := some line, position := some position } }
    modify fun st => { st with states := st.states.drop 1 }
    let state ← topState (← get).states
    modify fun st => { st with state }

/-- Recover from an error at the symbol ahead; the answer is whether the parse
goes on. -/
def recover (p : Parser) (ahead : ParseSymbol) : Parse Bool := do
  let st ← get
  if st.states.length ≤ 1 && ahead.kind != endName then
    set { st with ahead := none, state := 0, pushed := [] }
    return true
  else if ahead.kind == endName then return false
  else if ahead.kind == errorName then
    unwind p ahead
    return true
  else
    match st.symbols with
    | [] => throw .noEntry
    | top :: below =>
      if top.kind == errorName then dropAhead p top ahead below
      else set { st with pushed := some ahead :: st.pushed, ahead := some (errorAt ahead) }
      return true

/-- What to do next: a rule that is always completed here, or what the tables say
about the symbol ahead. -/
def decide_ (p : Parser) : Parse (Option Lalr.Action) := do
  let state := (← get).state
  match if p.defaulted then p.tables.defaulted? state else none with
  | some rule =>
    log p fun _ => return "Defaulted state " ++ toString state ++ ": Reduce using " ++ toString rule
    return some (.reduce rule)
  | none =>
    let s ← look
    return p.tables.action? state (p.tables.rules.names.idxOf s.kind)

def step (p : Parser) : Parse (Option Datum) := do
  let state := (← get).state
  log p fun _ => return "State  : " ++ toString state
  let action ← decide_ p
  log p fun _ => do return "Stack  : " ++ (← stackText)
  match action with
  | some (.shift target) =>
    shift p (← look) target
    return none
  | some (.reduce rule) =>
    reduce p rule
    return none
  | some .accept =>
    let result := (((← get).symbols.head?).bind (·.value)).getD .none
    log p fun _ => do return "Done   : Returning " ++ (← shown Datum.briefly result)
    log p fun _ => return "PLY: PARSE DEBUG END"
    return some result
  | some .refuse | none =>
    log p fun _ => do return "ERROR: Error  : " ++ (← stackText)
    let ahead ← look
    match ← report p ahead with
    | .handled => return none
    | .givenUp => return some .none
    | .unhandled => if ← recover p ahead then return none else return some .none

def steps (p : Parser) : Nat → Parse Datum
  | 0 => throw .endless
  | n + 1 => do
    match ← step p with
    | some d => return d
    | none => steps p n

/-- The most steps of a parse. -/
def stepLimit : Nat := Nat.pow 10 7

def start (tokens : List ParseSymbol) : ParseState :=
  { tokens, lastLine := 1, lastPosition := 0, ahead := none, pushed := [], state := 0, states := [0]
    symbols := [ParseSymbol.endSymbol], errorCount := 0, errorOk := true, trace := [], notes := [] }

end Parse

def Parser.parse (p : Parser) (tokens : List ParseSymbol) : Except ParseFault Datum × ParseState :=
  let all : Parse Datum := do
    Parse.log p fun _ => return "PLY: PARSE DEBUG START"
    Parse.steps p Parse.stepLimit
  all.run (Parse.start tokens)

end QuadLang
