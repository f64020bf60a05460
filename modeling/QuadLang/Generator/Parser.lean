/-
Generating parsers.

From definitions named `p_…`, whose documentation holds grammar rules, and the
values `tokens`, `precedence` and `start`, `ParserBuild.run` checks everything
and makes the tables of a parser.  What is wrong goes to an error log; what was
made goes to a debug log.
-/
import QuadLang.Generator.Definitions
import QuadLang.Grammar.Check
import QuadLang.Grammar.Report
import QuadLang.Grammar.Tables
import QuadLang.Grammar.Written

namespace QuadLang

inductive BuildFault where
  | unable
  | grammar (fault : GrammarFault)
  | tables (fault : TableFault)
  | unsettled (state : Nat)
  | soleRefusal
deriving Repr

def BuildFault.message : BuildFault → String
  | .unable => "Unable to build parser"
  | .grammar f => f.message
  | .tables f => f.message
  | .unsettled n => unsettledText n
  | .soleRefusal => "'<' not supported between instances of 'NoneType' and 'int'"

def BuildFault.kind : BuildFault → FaultKind
  | .unable => .build
  | .grammar f => f.kind
  | .tables f => f.kind
  | .unsettled _ => .tables
  | .soleRefusal => .type

structure BuildOptions where
  debug : Bool
  /-- The start symbol, when the caller chooses it. -/
  start : Option Datum
  checkRecursion : Bool

structure ParserBuild where
  errorLog : List String
  debugLog : List String
  grammar : Grammar
  result : Except BuildFault Lalr.Tables

/-- A rule function: its name, documentation, line and number of arguments. -/
structure RuleFunction where
  name : String
  doc : Option String
  line : Int
  arity : Int

namespace Definitions

/-- The rule functions in the order of their lines and names. -/
def ruleFunctions (d : Definitions) : List RuleFunction :=
  let found := d.entries.filterMap fun (name, e) =>
    match e with
    | .function doc line arity =>
      if name.startsWith "p_" && name != "p_error" then some { name, doc, line, arity : RuleFunction }
      else none
    | .value _ => none
  found.mergeSort fun a b => decide (a.line < b.line) || (a.line == b.line && decide (a.name ≤ b.name))

/-- The list of tokens in the order of their names, or what is wrong with it. -/
def tokens (d : Definitions) : Except String (List String) :=
  match d.value? "tokens" with
  | none => .error "No token list is defined"
  | some v =>
    if !v.truthy then .error "No token list is defined"
    else match v.members? with
      | none => .error "tokens must be a list or tuple"
      | some xs => .ok ((xs.map (·.plainText)).mergeSort fun a b => decide (a ≤ b))

def handlerFaults (d : Definitions) : List String :=
  match d.get? "p_error" with
  | none => []
  | some (.value v) =>
    if v.truthy then [failure "'p_error' defined, but is not a function or method"] else []
  | some (.function _ line arity) =>
    if arity == 1 then []
    else [failure (d.codeFile ++ ":" ++ toString line ++ ": p_error() requires 1 argument")]

def hasHandler (d : Definitions) : Bool :=
  match d.get? "p_error" with
  | none => false
  | some (.value v) => v.truthy
  | some (.function ..) => true

/-- The terminals of one level of precedence. -/
def precedenceLevel (level : Nat) : Datum → Except String (List (String × String × Nat))
  | d =>
    match d.members? with
    | none => .error "Bad precedence table"
    | some (assoc :: t :: ts) =>
      match assoc.text? with
      | none => .error "precedence associativity must be a string"
      | some assoc =>
        (t :: ts).mapM fun term => match term.text? with
          | none => .error "precedence items must be strings"
          | some term => .ok (term, assoc, level)
    | some _ => .error ("Malformed precedence entry " ++ d.shown ++ ". Must be (assoc, term, ..., term)")

/-- The declared precedences: terminal, associativity and level. -/
def precedences (d : Definitions) : Except String (List (String × String × Nat)) :=
  match d.value? "precedence" with
  | none => .ok []
  | some v =>
    if !v.truthy then .ok []
    else match v.members? with
      | none => .error "precedence must be a list or tuple"
      | some levels =>
        (levels.zipIdx.mapM fun (entry, i) => precedenceLevel (i + 1) entry).map List.flatten

/-- The productions of one rule function, and what there is to say about it. -/
def readRule (d : Definitions) (f : RuleFunction) :
    List String × List (String × WrittenRule) × Bool :=
  let at_ := d.fileText ++ ":" ++ toString f.line ++ ": "
  if f.arity > 1 then
    ([failure (at_ ++ "Rule " ++ Text.quote f.name ++ " has too many arguments")], [], false)
  else if f.arity < 1 then
    ([failure (at_ ++ "Rule " ++ Text.quote f.name ++ " requires an argument")], [], false)
  else match f.doc with
    | none | some "" =>
      ([warning (at_ ++ "No documentation string specified in function " ++ Text.quote f.name ++
        " (ignored)")], [], true)
    | some doc =>
      match WrittenRule.read doc d.fileText f.line with
      | .ok rules => ([], rules.map fun r => (f.name, r), true)
      | .error e => ([failure e.message], [], false)

def strayRules (d : Definitions) : List String :=
  d.entries.flatMap fun (name, e) =>
    match e with
    | .value _ =>
      if name.startsWith "p_" && name != "p_error" then
        [warning (Text.quote name ++ " not defined as a function")]
      else []
    | .function doc line arity =>
      if name.startsWith "p_" || name.startsWith "t_" || arity != 1 then []
      else match ((doc.map (Text.splitBy ' ')).getD []).drop 1 with
        | ":" :: _ => [warning (d.codeFile ++ ":" ++ toString line ++ ": Possible grammar rule " ++
            Text.quote name ++ " defined without p_ prefix")]
        | _ => []

def redefinedRules (d : Definitions) : List String :=
  (d.redefinitions (definedName "p_")).map fun (name, line, before) =>
    warning (d.fileText ++ ":" ++ toString line ++ ": Function " ++ name ++
      " redefined. Previously defined on line " ++ toString before)

/-- A text that changes whenever the grammar does; none when it cannot be
formed. -/
def signature (d : Definitions) (start : Option Datum) : Option String :=
  let start := start <|> d.value? "start"
  let startText := match start with
    | some v => if v.truthy then v.text? else some ""
    | none => some ""
  let precedence := match (d.value? "precedence").bind (·.members?) with
    | some levels => String.join (levels.map fun l =>
        String.join (((l.members?).getD []).map (·.plainText)))
    | none => ""
  let tokens := match d.tokens with
    | .ok ts => Text.join " " ts
    | .error _ => ""
  startText.map fun s =>
    s ++ precedence ++ tokens ++ String.join (d.ruleFunctions.map fun f => f.doc.getD "")

end Definitions

namespace ParserBuild

/-- A build that has stopped. -/
def stop (errors debug : List String) (g : Grammar) (fault : BuildFault) : ParserBuild :=
  { errorLog := errors, debugLog := debug, grammar := g, result := .error fault }

/-- Declare the precedences; what is refused is only a warning. -/
def addPrecedences (g : Grammar) (ps : List (String × String × Nat)) : Grammar × List String :=
  ps.foldl (fun (g, log) (term, assoc, level) =>
    match g.setPrecedence term assoc level with
    | .ok g => (g, log)
    | .error e => (g, log ++ [warning e.message])) (g, [])

/-- Add the productions; what is refused is an error.  An empty symbol stops the
build at once. -/
def addRules (g : Grammar) (rules : List (String × WrittenRule)) : Grammar × List String :=
  rules.foldl (fun (g, log) (action, r) =>
    match g.addProduction r.name r.symbols (some action) r.file r.line with
    | (g, none) => (g, log)
    | (g, some e) => (g, log ++ [failure e.message])) (g, [])

def chooseStart (g : Grammar) (start : Option Datum) : Except GrammarFault Grammar :=
  match start with
  | none => g.setStart none
  | some v =>
    if !v.truthy then g.setStart none
    else match v.text? with
      | some s => g.setStart (some s)
      | none => .error (.startUndefined v.shown)

/-- The remarks on a finished grammar: errors and warnings, and whether there
were errors. -/
def review (g : Grammar) (checkRecursion : Bool) : List String × List String × Bool :=
  let undefined := g.undefined.map fun (s, p) =>
    failure (place p.file p.line ++ ": Symbol " ++ Text.quote s ++
      " used, but not defined as a token or a rule")
  let unusedTokens := g.unusedTerminals
  let unusedRules := g.unusedRules
  let countLine := fun (n : Nat) (thing : String) =>
    if n == 0 then []
    else if n == 1 then [warning ("There is 1 unused " ++ thing)]
    else [warning ("There are " ++ toString n ++ " unused " ++ thing ++ "s")]
  let unreachable := if checkRecursion then (g.unreachable?.getD []).map fun s =>
      warning ("Symbol " ++ Text.quote s ++ " is unreachable") else []
  let endless := if checkRecursion then g.endless.map fun s =>
      failure ("Infinite recursion detected for symbol " ++ Text.quote s) else []
  let precedence := g.unusedPrecedence.map fun (s, a) =>
    failure ("Precedence rule " ++ Text.quote a.name ++ " defined for unknown symbol " ++ Text.quote s)
  (undefined ++
    unusedTokens.map (fun t => warning ("Token " ++ Text.quote t ++ " defined, but not used")) ++
    unusedRules.map (fun p => warning (place p.file p.line ++ ": Rule " ++ Text.quote p.name ++
      " defined, but not used")) ++
    countLine unusedTokens.length "token" ++ countLine unusedRules.length "rule" ++
    unreachable ++ endless ++ precedence,
   if unusedTokens.isEmpty then [] else
     ["", "Unused terminals:", ""] ++ unusedTokens.map ("    " ++ ·),
   !(undefined.isEmpty && endless.isEmpty && precedence.isEmpty))

def finish (errors debug : List String) (g : Grammar) (options : BuildOptions) : ParserBuild :=
  match g.makeTables with
  | (g, .error e) => stop errors debug g (.tables e)
  | (g, .ok t) =>
    let debug := if options.debug then debug ++ t.lines else debug
    if t.stopped.isSome then stop errors debug g (.unsettled t.rows.size)
    else
      let errors := if options.debug then errors ++ t.conflictWarnings g else errors
      let debug := if options.debug then debug ++ t.conflictLines g else debug
      if t.hasSoleRefusal then stop errors debug g .soleRefusal
      else { errorLog := errors, debugLog := debug, grammar := g, result := .ok t }

/-- The first line of a debug log. -/
def banner : String := "Created by PLY (http://www.dabeaz.com/ply)"

def run (d : Definitions) (options : BuildOptions) : ParserBuild :=
  let nothing := Grammar.ofTerminals []
  let start := options.start <|> d.value? "start"
  match d.tokens with
  | .error e => stop [failure e] [] nothing .unable
  | .ok tokens =>
    let debug := [banner]
    let startLog := match start with
      | some .none | some (.text _) | none => []
      | some _ => [failure "'start' must be a string"]
    let handlerLog := d.handlerFaults
    let (tokenLog, tokensBad) := if tokens.contains errorName then
        ([failure "Illegal token name 'error'. Is a reserved word"], true)
      else ((tokens.zipIdx.filter fun (t, i) => (tokens.take i).contains t).map fun (t, _) =>
        warning ("Token " ++ Text.quote t ++ " multiply defined"), false)
    let (precedenceLog, precedences, precedenceBad) := match d.precedences with
      | .ok ps => ([], ps, false)
      | .error e => ([failure e], [], true)
    let read := d.ruleFunctions.map d.readRule
    let (ruleLog, rulesBad) := if read.isEmpty then
        ([failure "no rules of the form p_rulename are defined"], true)
      else (read.flatMap (·.1) ++ d.strayRules, read.any fun r => !r.2.2)
    let moduleLog := if read.isEmpty && !(d.hasHandler && handlerLog.isEmpty) then []
      else d.redefinedRules
    let errors := startLog ++ handlerLog ++ tokenLog ++ precedenceLog ++ ruleLog ++ moduleLog
    if !handlerLog.isEmpty || tokensBad || precedenceBad || rulesBad then
      stop errors debug nothing .unable
    else
      let errors := if d.hasHandler then errors
        else errors ++ [warning "no p_error() function is defined"]
      let (g, log) := addPrecedences (Grammar.ofTerminals tokens) precedences
      let errors := errors ++ log
      let (g, log) := addRules g (read.flatMap (·.2.1))
      let errors := errors ++ log
      match chooseStart g start with
      | .error .noProductions => stop errors debug g (.grammar .noProductions)
      | .error e => stop (errors ++ [failure e.message]) debug g .unable
      | .ok g =>
        if !log.isEmpty then stop errors debug g .unable
        else
          let (remarks, unusedLines, bad) := review g options.checkRecursion
          let errors := errors ++ remarks
          let debug := debug ++ unusedLines
          let debug := if options.debug then debug ++ g.ruleLines ++ "" :: g.usageLines else debug
          if bad then stop errors debug g .unable else finish errors debug g options

end ParserBuild

end QuadLang
