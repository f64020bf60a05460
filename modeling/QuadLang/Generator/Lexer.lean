/-
Generating lexers.

From definitions named `t_…`, the values `tokens`, `literals` and `states`,
`LexerBuild.run` checks everything and makes a lexer.  A rule's name says in which
conditions it holds and which kind of token it gives.  What is wrong goes to an
error log; what was made goes to a debug log.

Design notes: the rules of a condition are tried in order: functions by their
lines, then plain patterns, the longest text first.  They are joined into one
pattern; when that cannot be read, because two rules name a group alike, the rules
are divided (`formMasters`).
-/
import QuadLang.Generator.Definitions
import QuadLang.Grammar.Check
import QuadLang.Grammar.Report
import QuadLang.Lexer.Basic
import QuadLang.Pattern.Reader

namespace QuadLang

inductive LexerBuildFault where
  | unable
  /-- A token that is no text, with the kind of value that it is. -/
  | notText (kind : String)
  /-- Rules that cannot be joined, and cannot be divided either. -/
  | indivisible
deriving Repr, DecidableEq

def LexerBuildFault.message : LexerBuildFault → String
  | .unable => "Can't build lexer"
  | .notText kind => "expected string or bytes-like object, got '" ++ kind ++ "'"
  | .indivisible => "the rules cannot be joined"

def LexerBuildFault.kind : LexerBuildFault → FaultKind
  | .unable => .expression
  | .notText _ => .type
  | .indivisible => .depth

structure LexerOptions where
  flags : Pattern.Flags
  /-- What the functions of rules do, by their names. -/
  action : String → LexAction

structure LexerBuild where
  errorLog : List String
  debugLog : List String
  result : Except LexerBuildFault Lexer

/-- The conditions and the kind of token that the name of a rule stands for, among
the conditions that there are; none for a name without a low line. -/
def ruleParts? (name : String) (conditions : List String) : Option (List String × String) :=
  match Text.splitBy '_' name with
  | [] | [_] => none
  | _ :: parts =>
    let known := (parts.takeWhile fun p => conditions.contains p || p == "ANY").length
    let named := parts.take (min known (parts.length - 1))
    let kind := Text.join "_" (parts.drop named.length)
    some (if named.isEmpty then [Lexer.initial] else if named.contains "ANY" then conditions else named,
      kind)

/-- The function of a rule: its name, pattern, line and number of arguments. -/
structure LexFunction where
  name : String
  pattern : Option String
  line : Int
  arity : Int
deriving Repr

/-- A condition and its rules. -/
structure Condition where
  name : String
  /-- Whether the rules of the first condition hold here too. -/
  inclusive : Bool
  functions : List LexFunction
  patterns : List (String × String)
  ignored : Option String
  handler : Option LexFunction
  ending : Option LexFunction
deriving Repr

namespace Condition

def bare (name : String) (inclusive : Bool) : Condition :=
  { name, inclusive, functions := [], patterns := [], ignored := none, handler := none, ending := none }

/-- The word for how a condition treats the rules of the first. -/
def sharing (c : Condition) : String := if c.inclusive then "inclusive" else "exclusive"

def sorted (c : Condition) : Condition :=
  { c with
    functions := c.functions.mergeSort fun a b => decide (a.line ≤ b.line)
    patterns := c.patterns.mergeSort fun a b => decide (b.2.length ≤ a.2.length) }

def rules (c : Condition) : List (String × String) :=
  c.functions.map (fun f => (f.name, f.pattern.getD "")) ++ c.patterns

end Condition

def namedGroup (name pattern : String) : String := "(?P<" ++ name ++ ">" ++ pattern ++ ")"

def hasFailure (log : List String) : Bool := log.any (·.startsWith (failure ""))

namespace Definitions

def lexTokens (d : Definitions) : List String × Datum :=
  match d.value? "tokens" with
  | none => ([failure "No token list is defined"], .list [])
  | some v =>
    if !v.truthy then ([failure "No token list is defined"], .list [])
    else if v.members?.isNone then ([failure "tokens must be a list or tuple"], .list [])
    else ([], v)

/-- The literal characters as they are defined; an empty text if there are none. -/
def literals (d : Definitions) : Datum :=
  match d.value? "literals" with
  | some v => if v.truthy then v else .text ""
  | none => .text ""

def addCondition : List String × List Condition → Datum → List String × List Condition
  | (log, cs), s =>
    let wrong := fun (text : String) => (log ++ [failure text], cs)
    match s with
    | .tuple [name, sharing] =>
      match name with
      | .text n =>
        match sharing.text? with
        | some "inclusive" =>
          if cs.any (·.name == n) then wrong ("State " ++ Text.quote n ++ " already defined")
          else (log, cs ++ [.bare n true])
        | some "exclusive" =>
          if cs.any (·.name == n) then wrong ("State " ++ Text.quote n ++ " already defined")
          else (log, cs ++ [.bare n false])
        | _ => wrong ("State type for state " ++ Text.quote n ++ " must be 'inclusive' or 'exclusive'")
      | name => wrong ("State name " ++ name.shown ++ " must be a string")
    | s => wrong ("Invalid state specifier " ++ s.shown ++
        ". Must be a tuple (statename,'exclusive|inclusive')")

/-- The conditions, without their rules, and what is wrong with them. -/
def conditions (d : Definitions) : List String × List Condition :=
  let start := ([], [Condition.bare Lexer.initial true])
  match d.value? "states" with
  | none => start
  | some v =>
    if !v.truthy then start
    else match v.members? with
      | none => ([failure "states must be defined as a tuple or list"], start.2)
      | some xs => xs.foldl addCondition start

def place (d : Definitions) (line : Int) : String := d.codeFile ++ ":" ++ toString line

def addRule (d : Definitions) : List String × List Condition → String × Definition →
    List String × List Condition
  | (log, cs), (name, e) =>
    let (names, kind) := (ruleParts? name (cs.map (·.name))).getD ([], "")
    let change := fun (f : Condition → Condition) =>
      (log, cs.map fun c => if names.contains c.name then f c else c)
    match e with
    | .function pattern line arity =>
      let f : LexFunction := { name, pattern, line, arity }
      match kind with
      | "error" => change fun c => { c with handler := some f }
      | "eof" => change fun c => { c with ending := some f }
      | "ignore" => (log ++ [failure (d.place line ++ ": Rule " ++ Text.quote name ++
          " must be defined as a string")], cs)
      | _ => change fun c => { c with functions := c.functions ++ List.replicate (names.count c.name) f }
    | .value (.text t) =>
      match kind with
      | "error" => (log ++ [failure ("Rule " ++ Text.quote name ++ " must be defined as a function")], cs)
      | "ignore" =>
        let (log, cs) := change fun c => { c with ignored := some t }
        (if t.toList.contains '\\' then log ++ [warning (name ++ " contains a literal backslash '\\'")]
          else log, cs)
      | _ => change fun c =>
          { c with patterns := c.patterns ++ List.replicate (names.count c.name) (name, t) }
    | .value _ => (log ++ [failure (name ++ " not defined as a function or string")], cs)

def lexRules (d : Definitions) : List (String × Definition) := d.entries.filter (·.1.startsWith "t_")

/-- The conditions with their rules, and what is wrong with them. -/
def filledConditions (d : Definitions) : List String × List Condition :=
  let (log, cs) := d.conditions
  if d.lexRules.isEmpty then (log ++ [failure "No rules of the form t_rulename are defined"], cs)
  else
    let (log, cs) := d.lexRules.foldl d.addRule (log, cs)
    (log, cs.map (·.sorted))

/-- Whether a text is a name of a token: letters, digits and low lines, perhaps with
a line feed after them. -/
def isTokenName (s : String) : Bool :=
  let cs := s.toList
  let word := if cs.getLast? == some '\n' then cs.dropLast else cs
  !word.isEmpty && word.all fun c => c.isAlphanum || c == '_'

/-- Check the names of the tokens: the log, and the kind of the first value that is
no text. -/
def tokenFaults : List String → List Datum → List String × Option String
  | _, [] => ([], none)
  | seen, .text n :: rest =>
    let bad := if isTokenName n then [] else [failure ("Bad token name " ++ Text.quote n)]
    let twice := if seen.contains n then [warning ("Token " ++ Text.quote n ++ " multiply defined")] else []
    let (log, kind) := tokenFaults (n :: seen) rest
    (bad ++ twice ++ log, kind)
  | _, v :: _ => ([], some v.kindName)

def literalFaults : Datum → List String
  | .text _ => []
  | .list xs | .tuple xs => xs.filterMap fun v =>
    if (v.text?.map fun s => decide (s.length ≤ 1)) == some true then none
    else some (failure ("Invalid literal " ++ v.shown ++ ". Must be a single character"))
  | _ => [failure "Invalid literals specification. literals must be a sequence of characters"]

/-- What is wrong with the pattern of a rule.  The messages begin with `at_` and the
hint begins with `hint`. -/
def patternFaults (flags : Pattern.Flags) (at_ hint name shownName pattern : String) : List String :=
  let text := namedGroup name pattern
  match Pattern.read flags text with
  | .ok c =>
    if c.pattern.acceptsEmpty then
      [failure (at_ ++ "Regular expression for rule " ++ Text.quote name ++ " matches empty string")]
    else []
  | .error f =>
    failure (at_ ++ "Invalid regular expression for rule " ++ shownName ++ ". " ++ f.message text) ::
      (if pattern.toList.contains '#' then
        [failure (hint ++ "Make sure '#' in rule " ++ Text.quote name ++ " is escaped with '\\#'")]
      else [])

def arityFaults (d : Definitions) (f : LexFunction) : List String :=
  let wrong := fun (text : String) =>
    [failure (d.place f.line ++ ": Rule " ++ Text.quote f.name ++ text)]
  if f.arity > 1 then wrong " has too many arguments"
  else if f.arity < 1 then wrong " requires an argument"
  else []

def functionFaults (d : Definitions) (flags : Pattern.Flags) (f : LexFunction) : List String :=
  let at_ := d.place f.line ++ ": "
  let arity := d.arityFaults f
  let pattern := f.pattern.getD ""
  if !arity.isEmpty then arity
  else if pattern == "" then
    [failure (at_ ++ "No regular expression defined for rule " ++ Text.quote f.name)]
  else patternFaults flags at_ (d.place f.line ++ ". ") f.name ("'" ++ f.name ++ "'") pattern

def tokenKind (cs : List Condition) (name : String) : String :=
  ((ruleParts? name (cs.map (·.name))).map (·.2)).getD ""

/-- Whether a text has `ignore_` in it, at `least` or later. -/
def marksIgnored (s : String) (least : Nat) : Bool :=
  let cs := s.toList
  (List.range cs.length).any fun i => least ≤ i && "ignore_".toList.isPrefixOf (cs.drop i)

def patternRuleFaults (tokens : Datum) (cs : List Condition) (flags : Pattern.Flags)
    (rule : String × String) : List String :=
  let (name, pattern) := rule
  let kind := tokenKind cs name
  let listed := (tokens.members?.getD []).any fun t => t.text? == some kind
  if !listed && !marksIgnored kind 0 then
    [failure ("Rule " ++ Text.quote name ++ " defined for an unspecified token " ++ kind)]
  else patternFaults flags "" "" name (Text.quote name) pattern

def conditionFaults (d : Definitions) (tokens : Datum) (cs : List Condition) (flags : Pattern.Flags)
    (c : Condition) : List String :=
  c.functions.flatMap (d.functionFaults flags) ++
  c.patterns.flatMap (patternRuleFaults tokens cs flags) ++
  (if c.functions.isEmpty && c.patterns.isEmpty then
    [failure ("No rules defined for state " ++ Text.quote c.name)] else []) ++
  (match c.handler with
    | some f => d.arityFaults f
    | none => [])

/-- The name that a line defines as a value, when it begins as given. -/
def assignedName (beginning : String) (line : String) : Option String :=
  let cs := line.toList.dropWhile Text.isBlank
  let isPart := fun (c : Char) => c.isAlphanum || c == '_'
  if beginning.toList.isPrefixOf cs && ((cs.dropWhile isPart).dropWhile Text.isBlank).head? == some '=' then
    some (String.ofList (cs.takeWhile isPart))
  else none

/-- The rules that are defined twice in the file; it is looked at only for the sake
of functions. -/
def twiceDefined (d : Definitions) (cs : List Condition) : List String :=
  if cs.any fun c => !c.functions.isEmpty || c.handler.isSome then
    (d.redefinitions fun line => (definedName "t_" line).orElse fun _ => assignedName "t_" line).map
      fun (name, line, before) => failure (d.place line ++ ": Rule " ++ name ++
        " redefined. Previously defined on line " ++ toString before)
  else []

/-- The rule for a named group: none when the rules cannot be used, nothing inside
when the name is no definition. -/
def groupRule (d : Definitions) (o : LexerOptions) (cs : List Condition) (name : String) :
    Option (Option Lexer.Rule) :=
  match d.get? name with
  | none | some (.value .none) => some none
  | some e =>
    let isRule := name.startsWith "t_"
    match e with
    | .function .. =>
      if isRule then some (some ⟨some (o.action name), some (tokenKind cs name)⟩) else none
    | .value _ =>
      if marksIgnored name 1 then some (some ⟨none, none⟩)
      else if isRule then some (some ⟨none, some (tokenKind cs name)⟩)
      else none

def formMaster? (d : Definitions) (o : LexerOptions) (cs : List Condition) (groups : List String) :
    Option Lexer.Master :=
  let text := Text.join "|" groups
  match Pattern.read o.flags text with
  | .error _ => none
  | .ok c => do
    let found ← c.names.mapM fun (name, i) => (d.groupRule o cs name).map fun r => (i, name, r)
    let size := (c.names.map (·.2)).foldl max 0 + 1
    let at_ := fun (i : Nat) => found.lookup i
    return {
      text, pattern := c.pattern
      names := (List.range size).map fun i => (at_ i).bind fun (name, r) => r.map fun _ => name
      rules := (List.range size).map fun i => (at_ i).bind (·.2) }

/-- Join rules into as few patterns as halving them takes. -/
def formMasters (d : Definitions) (o : LexerOptions) (cs : List Condition) (groups : List String) :
    Except LexerBuildFault (List Lexer.Master) :=
  if groups.isEmpty then .ok []
  else match d.formMaster? o cs groups with
    | some m => .ok [m]
    | none =>
      if groups.length ≤ 2 then .error .indivisible
      else do
        let half := groups.length / 2 + 1
        return (← d.formMasters o cs (groups.take half)) ++ (← d.formMasters o cs (groups.drop half))
termination_by groups.length
decreasing_by
  all_goals simp only [List.length_take, List.length_drop]; omega

def literalText : Datum → String
  | .text s => s
  | v => String.join ((v.members?.getD []).map (·.plainText))

def lexer (d : Definitions) (o : LexerOptions) (cs : List Condition) :
    Except LexerBuildFault Lexer := do
  let own ← cs.mapM fun c => do
    return (c, ← d.formMasters o cs (c.rules.map fun (name, p) => namedGroup name p))
  let first := own.find? fun (c, _) => c.name == Lexer.initial
  let firstMasters := (first.map (·.2)).getD []
  let conditions := own.map fun (c, ms) =>
    (c.name, if c.inclusive && c.name != Lexer.initial then ms ++ firstMasters else ms)
  let handlerOf := fun (c : Condition) => c.handler.map fun f => o.action f.name
  let handler := first.bind fun (c, _) => handlerOf c
  let ignore := (first.bind (·.1.ignored)).getD ""
  return {
    conditions, written := conditions
    ignored := cs.filterMap fun c =>
      if c.inclusive then some (c.name, c.ignored.getD ignore) else c.ignored.map fun s => (c.name, s)
    handlers := cs.filterMap fun c =>
      if c.inclusive then some (c.name, (handlerOf c).orElse fun _ => handler)
      else c.handler.map fun _ => (c.name, handlerOf c)
    endings := cs.filterMap fun c => c.ending.map fun f => (c.name, o.action f.name)
    literals := literalText d.literals
    condition := Lexer.initial
    masters := firstMasters
    ignore, handler
    ending := first.bind fun (c, _) => c.ending.map fun f => o.action f.name
    stack := [], text := none, position := 0, line := 1, turns := [] }

/-- What a lexer lacks. -/
def lackWarnings (cs : List Condition) (l : Lexer) : List String :=
  (if l.handler.isNone then [warning "No t_error rule is defined"] else []) ++
  cs.flatMap fun c =>
    if c.inclusive then []
    else (if c.handler.isNone then
        [warning ("No error rule is defined for exclusive state " ++ Text.quote c.name)] else []) ++
      (if c.ignored.isNone && l.ignore != "" then
        [warning ("No ignore rule is defined for exclusive state " ++ Text.quote c.name)] else [])

def ruleLog (d : Definitions) (tokens : Datum) (cs : List Condition) : List String :=
  ["lex: tokens   = " ++ tokens.shown, "lex: literals = " ++ d.literals.shown,
    "lex: states   = \x7b" ++ Text.join ", " (cs.map fun c =>
      Text.quote c.name ++ ": '" ++ c.sharing ++ "'") ++ "\x7d"] ++
  cs.flatMap (fun c => c.rules.map fun (name, p) =>
    "lex: Adding rule " ++ name ++ " -> '" ++ p ++ "' (state '" ++ c.name ++ "')") ++
  ["lex: ==== MASTER REGEXS FOLLOW ===="]

def masterLog (d : Definitions) (o : LexerOptions) (cs : List Condition) : List String :=
  cs.flatMap fun c =>
    match d.formMasters o cs (c.rules.map fun (name, p) => namedGroup name p) with
    | .error _ => []
    | .ok ms => ms.zipIdx.map fun (m, i) =>
      "lex: state '" ++ c.name ++ "' : regex[" ++ toString i ++ "] = '" ++ m.text ++ "'"

end Definitions

def LexerBuild.run (d : Definitions) (o : LexerOptions) : LexerBuild :=
  let (log, tokens) := d.lexTokens
  let (log', cs) := d.filledConditions
  let (names, stop) := Definitions.tokenFaults [] (tokens.members?.getD [])
  let log := log ++ log' ++ names
  match stop with
  | some kind => ⟨log, [], .error (.notText kind)⟩
  | none =>
    let log := log ++ Definitions.literalFaults d.literals ++
      cs.flatMap (d.conditionFaults tokens cs o.flags) ++ d.twiceDefined cs
    if hasFailure log then ⟨log, [], .error .unable⟩
    else match d.lexer o cs with
      | .error f => ⟨log, d.ruleLog tokens cs, .error f⟩
      | .ok l => ⟨log ++ Definitions.lackWarnings cs l,
          d.ruleLog tokens cs ++ d.masterLog o cs, .ok l⟩

end QuadLang
