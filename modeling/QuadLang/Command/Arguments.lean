/-
The arguments of the command.

`Invocation.ofArguments` reads the arguments: a file and switches, which may be
written short, several in one word, or long, as far as the name is not in doubt.
After `--` nothing is a switch.

Design notes: words are sorted before anything is done, so a switch that is in
doubt is reported first; the rest is done from left to right, so a request for help
wins over every fault that is found only at the end.
-/
import QuadLang.Text.Digit
import QuadLang.Text.Lines
import QuadLang.Text.Quoted

namespace QuadLang

inductive Switch where
  | help
  | tokens
  | parser
  | machine
deriving Repr, DecidableEq

namespace Switch

/-- The switches in the order in which they are listed. -/
def all : List Switch := [.help, .tokens, .parser, .machine]

def letter : Switch → Char
  | .help => 'h'
  | .tokens => 't'
  | .parser => 'p'
  | .machine => 'v'

def name : Switch → String
  | .help => "help"
  | .tokens => "tokens"
  | .parser => "parser"
  | .machine => "vm"

def purpose : Switch → String
  | .help => "show this help message and exit"
  | .tokens => "Print tokens"
  | .parser => "Enable debug info for parsing"
  | .machine => "Enable debug info for virtual machine"

def short (s : Switch) : String := String.ofList ['-', s.letter]

def long (s : Switch) : String := "--" ++ s.name

def ofLetter? (c : Char) : Option Switch := all.find? (·.letter == c)

def ofWord? (w : String) : Option Switch := all.find? fun s => s.short == w || s.long == w

end Switch

inductive ArgumentFault where
  | required
  | unrecognized (words : List String)
  | ambiguous (word : String) (candidates : List Switch)
  /-- A value for a switch that takes none. -/
  | value (s : Switch) (text : String)
deriving Repr, DecidableEq

def ArgumentFault.message : ArgumentFault → String
  | .required => "the following arguments are required: file"
  | .unrecognized words => "unrecognized arguments: " ++ Text.join " " words
  | .ambiguous word candidates =>
    "ambiguous option: " ++ word ++ " could match " ++ Text.join ", " (candidates.map (·.long))
  | .value s text =>
    "argument " ++ s.short ++ "/" ++ s.long ++ ": ignored explicit argument " ++ Text.quote text

/-- What an argument is taken for. -/
inductive ArgumentWord where
  | plain
  /-- The mark after which nothing is a switch. -/
  | dashes
  /-- A switch, whether its long form is written, and the value that is given to it. -/
  | switch (s : Switch) (long : Bool) (value : Option String)
  | unknown
deriving Repr, DecidableEq

namespace ArgumentWord

/-- The parts of a word before and after its first equals sign. -/
def halves? (w : String) : Option (String × String) :=
  if w.toList.contains '=' then some (Text.cutAt '=' w) else none

def isNumber (cs : List Char) : Bool :=
  let cs := if cs.getLast? == some '\n' then cs.dropLast else cs
  match Text.splitChars '.' cs with
  | [ds] => !ds.isEmpty && ds.all Text.isDigit
  | [ds, fs] => ds.all Text.isDigit && !fs.isEmpty && fs.all Text.isDigit
  | _ => false

def ofOther (cs : List Char) : ArgumentWord :=
  if isNumber (cs.drop 1) || cs.contains ' ' then .plain else .unknown

/-- A word whose beginning is a switch: the beginning of a long form, or a letter
with more after it. -/
def ofBeginning (w : String) : Except ArgumentFault ArgumentWord :=
  let cs := w.toList
  match cs with
  | '-' :: '-' :: _ =>
    let (beginning, value) := match halves? w with
      | some (b, v) => (b, some v)
      | none => (w, none)
    match Switch.all.filter (·.long.startsWith beginning) with
    | [] => .ok (ofOther cs)
    | [s] => .ok (.switch s true value)
    | candidates => .error (.ambiguous w candidates)
  | '-' :: c :: rest =>
    match Switch.ofLetter? c with
    | some s => .ok (.switch s false (some (String.ofList rest)))
    | none => .ok (ofOther cs)
  | _ => .ok (ofOther cs)

def ofText (w : String) : Except ArgumentFault ArgumentWord :=
  if !w.startsWith "-" || w == "-" then .ok .plain
  else match Switch.ofWord? w with
    | some s => .ok (.switch s (w == s.long) none)
    | none =>
      match (halves? w).bind fun (b, v) => (Switch.ofWord? b).map fun s => (s, b, v) with
      | some (s, b, v) => .ok (.switch s (b == s.long) (some v))
      | none => ofBeginning w

def ofTexts : List String → Except ArgumentFault (List (String × ArgumentWord))
  | [] => .ok []
  | "--" :: rest => .ok (("--", .dashes) :: rest.map fun w => (w, .plain))
  | w :: rest => do
    let k ← ofText w
    return (w, k) :: (← ofTexts rest)

def isSwitch : ArgumentWord → Bool
  | .switch .. | .unknown => true
  | _ => false

end ArgumentWord

def Switch.joined (s : Switch) : List Char → Except ArgumentFault (List Switch)
  | [] => .ok [s]
  | c :: cs =>
    match Switch.ofLetter? c with
    | none => .error (.value s (String.ofList (c :: cs)))
    | some t => do return s :: (← t.joined cs)

def Switch.expand (s : Switch) (long : Bool) : Option String → Except ArgumentFault (List Switch)
  | none => .ok [s]
  | some "" => .error (.value s "")
  | some v => if long then .error (.value s v) else s.joined v.toList

structure Options where
  tokens : Bool
  parser : Bool
  machine : Bool
  file : String
deriving Repr, DecidableEq

inductive Invocation where
  | help
  | wrong (fault : ArgumentFault)
  | run (options : Options)
deriving Repr, DecidableEq

namespace Invocation

/-- What was read so far. -/
structure Reading where
  file : Option String
  switches : List Switch
  /-- The words without a use. -/
  extra : List String

def Reading.finish (r : Reading) : Invocation :=
  match r.file with
  | none => .wrong .required
  | some file =>
    if r.extra.isEmpty then
      .run ⟨r.switches.contains .tokens, r.switches.contains .parser, r.switches.contains .machine, file⟩
    else .wrong (.unrecognized r.extra)

def readRest (r : Reading) (words : List (String × ArgumentWord)) : Reading :=
  let extra := fun (ws : List (String × ArgumentWord)) => r.extra ++ ws.map (·.1)
  match r.file, words with
  | none, (w, .plain) :: (_, .dashes) :: rest => { r with file := some w, extra := extra rest }
  | none, (w, .plain) :: rest => { r with file := some w, extra := extra rest }
  | none, (_, .dashes) :: (w, .plain) :: rest => { r with file := some w, extra := extra rest }
  | _, words => { r with extra := extra words }

def read (r : Reading) : List (String × ArgumentWord) → Invocation
  | [] => r.finish
  | (w, k) :: rest =>
    if !((w, k) :: rest).any (·.2.isSwitch) then (readRest r ((w, k) :: rest)).finish
    else match k with
      | .switch s long value =>
        match s.expand long value with
        | .error f => .wrong f
        | .ok ss =>
          if ss.contains .help then .help
          else read { r with switches := r.switches ++ ss } rest
      | .plain =>
        if r.file.isNone then read { r with file := some w } rest
        else read { r with extra := r.extra ++ [w] } rest
      | _ => read { r with extra := r.extra ++ [w] } rest

def ofArguments (args : List String) : Invocation :=
  match ArgumentWord.ofTexts args with
  | .error f => .wrong f
  | .ok words => read ⟨none, [], []⟩ words

end Invocation

def commandName : String := "honk.py"

def usage : String :=
  "usage: " ++ commandName ++ String.join (Switch.all.map fun s => " [" ++ s.short ++ "]") ++ " file\n"

def helpText : String :=
  let entry := fun (name purpose : String) => "  " ++ Text.padRight 14 name ++ purpose ++ "\n"
  usage ++ "\nh o n k\n\npositional arguments:\n" ++ entry "file" "Specify a file to run through" ++
  "\noptions:\n" ++ String.join (Switch.all.map fun s => entry (s.short ++ ", " ++ s.long) s.purpose)

def complaint (f : ArgumentFault) : String :=
  usage ++ commandName ++ ": error: " ++ f.message ++ "\n"

end QuadLang
