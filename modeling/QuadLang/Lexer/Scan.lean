/-
The tokens of a lexer.

`Lexer.next` gives the next token, or none at the end of the text.  `Lexer.scan`
is its loop: characters that are passed over, then the rules in force, then the
literal characters, then the action for errors.

Design notes: which characters are passed over is looked up when a token is asked
for and again when an action leaves nothing, but not after an error.  The loop
takes fuel, because actions may move back in the text.
-/
import QuadLang.Lexer.Basic

namespace QuadLang.Lexer

/-- The text that an action goes on with. -/
def moreText : String := "9"

/-- What an action makes of a token.  `again` gives the next token of the lexer. -/
def perform (again : Lex (Option Token)) (t : Token) : LexAction → Lex (Option Token)
  | .keep => return some t
  | .drop => return none
  | .toInt =>
    match Number.readInt t.value.plainText with
    | .ok i => return some { t with value := .int i }
    | .error f => throw (.numeral f)
  | .retype kind => return some { t with kind }
  | .newline => do
    modify fun l => { l with line := l.line + t.value.plainText.length }
    return none
  | .enter name => do enter name; return none
  | .push name => do push name; return none
  | .pop => do pop; return none
  | .skip n => do modify (skip n); return none
  | .cut n => do
    modify (skip n)
    return some { t with value := .text (cutText t.value.plainText n) }
  | .more name n => do
    let l ← get
    let used := (l.turns.get? name).getD 0
    if used < n then
      set { l.input moreText with turns := l.turns.put name (used + 1) }
      again
    else return none

def finish (again : Lex (Option Token)) (position : Int) : Lex (Option Token) := do
  let l ← get
  match l.ending with
  | some action =>
    set { l with position }
    perform again ⟨"eof", .text "", l.line, position⟩ action
  | none =>
    set { l with position := position + 1 }
    if l.text.isNone then throw .noText
    return none

/-- Look for a token from a position on, passing over the characters of `ignore`. -/
def scan : Nat → Int → String → Lex (Option Token)
  | 0, _, _ => throw .endless
  | fuel + 1, position, ignore => do
    let again : Lex (Option Token) := do
      let l ← get
      scan fuel l.position l.ignore
    let l ← get
    let cs := l.text.getD []
    if (cs.length : Int) ≤ position then finish again position
    else match charAt? cs position with
      | none => throw .noChar
      | some c =>
        if ignore.toList.contains c then scan fuel (position + 1) ignore
        else match l.matchAt cs position with
          | some (m, stop, group) =>
            match m.rule group with
            | .error f => throw f
            | .ok r =>
              let value := String.ofList ((cs.drop position.toNat).take (stop - position.toNat).toNat)
              let t : Token := ⟨r.kind.getD "", .text value, l.line, position⟩
              match r.action, r.kind with
              | none, some _ =>
                set { l with position := stop }
                return some t
              | none, none => scan fuel stop ignore
              | some action, _ =>
                set { l with position := stop }
                match ← perform again t action with
                | some t => return some t
                | none => again
          | none =>
            if l.literals.toList.contains c then
              set { l with position := position + 1 }
              return some ⟨String.singleton c, .text (String.singleton c), l.line, position⟩
            else
              set { l with position }
              match l.handler with
              | none => throw (.illegal c position)
              | some action =>
                let t := ⟨"error", .text (textFrom cs position), l.line, position⟩
                let r ← perform again t action
                let after := (← get).position
                if after == position then throw (.stuck c)
                match r with
                | some t => return some t
                | none => scan fuel after ignore

/-- How many turns the loop gets for one token. -/
def fuelFor (l : Lexer) : Nat := 16 * (l.length + 64)

def next : Lex (Option Token) := do
  let l ← get
  scan l.fuelFor l.position l.ignore

/-- Up to `n` tokens, until there is none. -/
def tokensUpTo : Nat → Lex (List Token)
  | 0 => throw .endless
  | n + 1 => do
    match ← next with
    | none => return []
    | some t => return t :: (← tokensUpTo n)

def tokens : Lex (List Token) := do tokensUpTo ((← get).fuelFor)

def Token.entry (t : Token) : String :=
  "(" ++ t.kind ++ "," ++ t.value.shown ++ "," ++ toString t.line ++ "," ++ toString t.position ++ ")\n"

/-- List up to `n` tokens: the lines written and the fault that ended them. -/
def listUpTo : Nat → Lexer → List String × Option Fault × Lexer
  | 0, l => ([], some .endless, l)
  | n + 1, l =>
    match next.run l with
    | (.error f, l) => ([], some f, l)
    | (.ok none, l) => ([], none, l)
    | (.ok (some t), l) =>
      let (lines, fault, l) := listUpTo n l
      (t.entry :: lines, fault, l)

/-- The prompt before text is read from the terminal. -/
def prompt : String := "Reading from standard input (type EOF to end):\n"

/-- List the tokens of a text.  For an empty text, `prompted`, the prompt is
written. -/
def listing (l : Lexer) (s : String) (prompted : Bool) : List String × Option Fault × Lexer :=
  let l := l.input s
  let (lines, fault, l) := listUpTo l.fuelFor l
  (if prompted && s.isEmpty then prompt :: lines else lines, fault, l)

end QuadLang.Lexer
