/-
Pasted expressions.

The operands of an operator are written out, with the operator between them, and
the text is evaluated as an expression.  A number or a truth word stands for
itself; any other text, such as the character of a `char` cell, is read as part
of the expression: a digit is a number, a letter is a name, and two quotes make a
text of what stands between them.

`paste` evaluates operands that stand for themselves directly; `Expr.read` and
`Expr.eval` are for the other ones.
-/
import QuadLang.Machine.Operator
import QuadLang.Table
import QuadLang.Text.Literal
import QuadLang.Text.Word

namespace QuadLang

inductive Lexeme where
  | value (v : Value)
  | name (s : String)
  | sign (s : String)
deriving Repr

inductive Expr where
  | value (v : Value)
  | name (s : String)
  | unary (sign : String) (e : Expr)
  | binary (op : Operator) (l r : Expr)
  /-- Comparisons in a row: each holds between its neighbours. -/
  | compare (first : Expr) (rest : List (Operator × Expr))
  | not (e : Expr)
  | tuple (items : List Expr)
deriving Repr

namespace Lexeme

def longSigns : List String := ["==", "!=", "<=", ">="]

def shortSigns : List Char := "+-*/%<>()~,".toList

/-- The characters that a number can consist of: digits, a point, an exponent. -/
def spanNumber : List Char → List Char × List Char
  | [] => ([], [])
  | c :: cs =>
    if (c == 'e' || c == 'E') && (cs.head? == some '+' || cs.head? == some '-') then
      match cs with
      | s :: ds => ([c, s] ++ ds.takeWhile Char.isDigit, ds.dropWhile Char.isDigit)
      | [] => ([c], [])
    else if c.isAlphanum || c == '.' || c == '_' then
      let (more, rest) := spanNumber cs
      (c :: more, rest)
    else ([], c :: cs)

def number? (cs : List Char) : Option Value :=
  if cs.all fun c => c.isDigit || c == '_' then
    match Number.readInt (String.ofList cs) with
    | .ok i => if cs.head? == some '0' && i != 0 then none else some (.int i)
    | .error _ => none
  else
    match Number.readFloat (String.ofList cs) with
    | .ok x => some (.real x)
    | .error _ => none

def next? (cs : List Char) : Option (Lexeme × List Char) :=
  match cs with
  | [] => none
  | c :: rest =>
    if c == '\'' || c == '"' then
      (Text.readOne cs).map fun (s, rest) => (.value (.text (String.ofList s)), rest)
    else if c.isDigit || (c == '.' && (rest.head?.map Char.isDigit).getD false) then
      let (word, rest) := spanNumber cs
      (number? word).map fun v => (.value v, rest)
    else if Text.isLetter c then
      some (.name (String.ofList (cs.takeWhile Text.isNamePart)), cs.dropWhile Text.isNamePart)
    else if longSigns.contains (String.ofList (cs.take 2)) then
      some (.sign (String.ofList (cs.take 2)), cs.drop 2)
    else if shortSigns.contains c then some (.sign (String.ofList [c]), rest)
    else none

def readAll : Nat → List Char → Option (List Lexeme)
  | 0, _ => none
  | n + 1, cs =>
    match cs.dropWhile fun c => c == ' ' || c == '\t' || c == Char.ofNat 12 with
    | [] => some []
    | cs => do
      let (l, rest) ← next? cs
      return l :: (← readAll n rest)

end Lexeme

namespace Expr

/-- The levels of expressions, from the loosest to the tightest. -/
inductive Level where
  | either
  | both
  | inversion
  | comparison
  | sum
  | term
  | factor
deriving Repr, DecidableEq

/-- The operators of sums and of terms. -/
def signsOf : Level → List (String × Operator)
  | .sum => [("+", .add), ("-", .sub)]
  | .term => [("*", .mul), ("/", .div), ("%", .mod)]
  | .comparison => [("==", .eq), ("!=", .ne), ("<", .lt), ("<=", .le), (">", .gt), (">=", .ge)]
  | _ => []

mutual

/-- Read an expression of a level; the number bounds the depth. -/
def parse : Nat → Level → List Lexeme → Option (Expr × List Lexeme)
  | 0, _, _ => none
  | n + 1, level, ls =>
    match level with
    | .either => do
      let (l, rest) ← parse n .both ls
      match rest with
      | .name "or" :: rest =>
        let (r, rest) ← parse n .either rest
        return (.binary .or l r, rest)
      | rest => return (l, rest)
    | .both => do
      let (l, rest) ← parse n .inversion ls
      match rest with
      | .name "and" :: rest =>
        let (r, rest) ← parse n .both rest
        return (.binary .and l r, rest)
      | rest => return (l, rest)
    | .inversion =>
      match ls with
      | .name "not" :: rest => (parse n .inversion rest).map fun (e, rest) => (.not e, rest)
      | ls => parse n .comparison ls
    | .comparison => do
      let (first, rest) ← parse n .sum ls
      let (more, rest) ← parseComparisons n rest
      return (if more.isEmpty then first else .compare first more, rest)
    | .sum => do
      let (first, rest) ← parse n .term ls
      parseMore n .sum .term first rest
    | .term => do
      let (first, rest) ← parse n .factor ls
      parseMore n .term .factor first rest
    | .factor =>
      match ls with
      | .sign s :: rest =>
        if s == "+" || s == "-" || s == "~" then
          (parse n .factor rest).map fun (e, rest) => (.unary s e, rest)
        else if s == "(" then parseGroup n [] rest
        else none
      | .value (.text s) :: rest =>
        let more := rest.takeWhile fun l => match l with | .value (.text _) => true | _ => false
        let texts := more.map fun l => match l with | .value (.text t) => t | _ => ""
        some (.value (.text (s ++ String.join texts)), rest.drop more.length)
      | .value v :: rest => some (.value v, rest)
      | .name "True" :: rest => some (.value (.truth true), rest)
      | .name "False" :: rest => some (.value (.truth false), rest)
      | .name "None" :: rest => some (.value .none, rest)
      | .name s :: rest =>
        if ["and", "or", "not", "if", "else", "is", "in", "lambda", "for"].contains s then none
        else some (.name s, rest)
      | [] => none

def parseMore : Nat → Level → Level → Expr → List Lexeme → Option (Expr × List Lexeme)
  | 0, _, _, _, _ => none
  | n + 1, level, tighter, l, ls =>
    match ls with
    | .sign s :: rest =>
      match (signsOf level).lookup s with
      | some op => do
        let (r, rest) ← parse n tighter rest
        parseMore n level tighter (.binary op l r) rest
      | none => some (l, ls)
    | ls => some (l, ls)

def parseComparisons : Nat → List Lexeme → Option (List (Operator × Expr) × List Lexeme)
  | 0, _ => none
  | n + 1, ls =>
    match ls with
    | .sign s :: rest =>
      match (signsOf .comparison).lookup s with
      | some op => do
        let (r, rest) ← parse n .sum rest
        let (more, rest) ← parseComparisons n rest
        return ((op, r) :: more, rest)
      | none => some ([], ls)
    | ls => some ([], ls)

/-- Read what stands in parentheses, after the first one. -/
def parseGroup : Nat → List Expr → List Lexeme → Option (Expr × List Lexeme)
  | 0, _, _ => none
  | n + 1, before, ls =>
    match ls with
    | .sign ")" :: rest => some (.tuple before.reverse, rest)
    | ls => do
      let (e, rest) ← parse n .either ls
      match rest with
      | .sign ")" :: rest =>
        return (if before.isEmpty then e else .tuple (e :: before).reverse, rest)
      | .sign "," :: rest => parseGroup n (e :: before) rest
      | _ => none

end

/-- Whether a text is indented: blanks after a form feed at its beginning count. -/
def isIndented (cs : List Char) : Bool :=
  let margin := cs.takeWhile fun c => c == ' ' || c == '\t' || c == Char.ofNat 12
  margin.contains (Char.ofNat 12) && margin.getLast? != some (Char.ofNat 12)

def read (s : String) : Option Expr :=
  if isIndented s.toList then none
  else do
    let ls ← Lexeme.readAll (s.length + 1) s.toList
    match ← parse (16 * (ls.length + 2)) .either ls with
    | (e, []) => some e
    | _ => none

def signed (sign : String) (v : Value) : Except MachineFault Value :=
  match v with
  | .real x =>
    if sign == "-" then .ok (.real (-x))
    else if sign == "+" then .ok v
    else .error (.notNegated sign "float")
  | v =>
    match v.int? with
    | some i => .ok (.int (if sign == "-" then -i else if sign == "+" then i else -i - 1))
    | none => .error (.notNegated sign v.kindName)

def eval (names : Table Value) : Expr → Except MachineFault Value
  | .value v => .ok v
  | .name s =>
    match names.get? s with
    | some v => .ok v
    | none => .error (.unknownName s)
  | .unary sign e => do signed sign (← e.eval names)
  | .binary .and l r => do
    let v ← l.eval names
    if v.truthy then r.eval names else return v
  | .binary .or l r => do
    let v ← l.eval names
    if v.truthy then return v else r.eval names
  | .binary op l r => do
    let a ← l.eval names
    op.apply a (← r.eval names)
  | .compare first rest => do compareAll (← first.eval names) rest
  | .not e => do return .truth (!(← e.eval names).truthy)
  | .tuple items => do return .tuple (← valueAll items)
where
  /-- Comparisons in a row, up to the first that does not hold. -/
  compareAll (left : Value) : List (Operator × Expr) → Except MachineFault Value
    | [] => .ok (.truth true)
    | [(op, r)] => do op.apply left (← r.eval names)
    | (op, r) :: rest => do
      let right ← r.eval names
      let result ← op.apply left right
      if result.truthy then compareAll right rest else return result
  valueAll : List Expr → Except MachineFault (List Value)
    | [] => .ok []
    | e :: rest => do
      let v ← e.eval names
      return v :: (← valueAll rest)

end Expr

/-- The value that a pasted operand stands for by itself, if it does: a finite
number, a truth value or the word for one. -/
def Value.standing? : Value → Option Value
  | .none => some .none
  | .truth b => some (.truth b)
  | .int i => some (.int i)
  | .real x => if x.isFinite then some (.real x) else .none
  | .text "True" => some (.truth true)
  | .text "False" => some (.truth false)
  | .text "None" => some .none
  | _ => .none

def paste (names : Table Value) (op : Operator) (left right : Value) :
    Except MachineFault Value := do
  let l ← left.plain
  let r ← right.plain
  match left.standing?, right.standing? with
  | some a, some b => op.apply a b
  | _, _ =>
    match Expr.read (l ++ " " ++ op.sign ++ " " ++ r) with
    | some e => e.eval names
    | none => throw .badExpression

end QuadLang
