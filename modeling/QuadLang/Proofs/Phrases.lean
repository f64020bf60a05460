/-
Phrases of the grammars, and expressions among them.

A `Phrase` is a derivation tree: its leaves are tokens with their values, its nodes are
rules.  Compiling a source does the step of every rule when the rule is complete, so
`Phrase.run` is what compiling does with a phrase.

A `Formula n` is an expression as it is written, of a level of precedence: a row of
operands of the next tighter level with operators of the level between them.

* `Formula.valid_phrase`, `Formula.yield_phrase` — a formula is a phrase of the grammar
  of either dialect, with the tokens that it is written with;
* `Formula.tree` — the tree of operations that the usual rules of precedence give it,
  the operators of one level grouping to the left.
-/
import QuadLang.Dialect.Rules
import QuadLang.Machine.Operator
import QuadLang.Proofs.Keeps
import QuadLang.Proofs.Numeral

namespace QuadLang

open Dialect

variable (d : Dialect)

/-- A derivation: tokens with their values, and rules with their parts. -/
inductive Phrase where
  | token (symbol : String) (value : Literal)
  | node (rule : DialectRule) (parts : List Phrase)

namespace Phrase

variable (rule : DialectRule) (before : Option Literal)

/-- The symbol of the grammar that a phrase is. -/
def symbol : Phrase → String
  | .token s _ => s
  | .node rule _ => rule.name

@[simp] theorem symbol_token (s : String) (v : Literal) : (token s v).symbol = s := rfl

@[simp] theorem symbol_node (parts : List Phrase) : (node rule parts).symbol = rule.name := rfl

/-- All nodes are rules of the dialect. -/
inductive Valid (d : Dialect) : Phrase → Prop where
  | token (s : String) (v : Literal) : Valid d (.token s v)
  | node {rule : DialectRule} {parts : List Phrase} (hrule : rule ∈ d.rules)
      (hsymbols : parts.map symbol = rule.symbols) (hparts : ∀ p ∈ parts, Valid d p) :
      Valid d (.node rule parts)

mutual

/-- The tokens of a phrase. -/
def yield : Phrase → List (String × Literal)
  | .token s v => [(s, v)]
  | .node _ parts => yieldAll parts

/-- The tokens of phrases. -/
def yieldAll : List Phrase → List (String × Literal)
  | [] => []
  | p :: ps => p.yield ++ yieldAll ps

end

mutual

/-- Do the steps of a phrase, each when its rule is complete.  `before` is the value of
the symbol that stands before the phrase. -/
def run (before : Option Literal) : Phrase → Compile (Option Literal)
  | .token _ v => return some v
  | .node rule parts => do
    let args ← runAll before parts
    Compile.perform before args rule.step

/-- Do the steps of phrases one after the other. -/
def runAll (before : Option Literal) : List Phrase → Compile (List (Option Literal))
  | [] => return []
  | p :: ps => do
    let v ← p.run before
    return v :: (← runAll v ps)

end

@[simp]
theorem yield_token (symbol : String) (v : Literal) : (token symbol v).yield = [(symbol, v)] := rfl

@[simp]
theorem yield_node (parts : List Phrase) : (node rule parts).yield = yieldAll parts := rfl

@[simp]
theorem yieldAll_nil : yieldAll [] = [] := rfl

@[simp]
theorem yieldAll_cons (p : Phrase) (ps : List Phrase) :
    yieldAll (p :: ps) = p.yield ++ yieldAll ps := rfl

@[simp]
theorem run_token (symbol : String) (v : Literal) :
    (token symbol v).run before = pure (some v) := rfl

@[simp]
theorem run_node (rule : DialectRule) (parts : List Phrase) : (node rule parts).run before = (do
      let args ← runAll before parts
      Compile.perform before args rule.step) := rfl

@[simp]
theorem runAll_nil : runAll before [] = pure [] := rfl

@[simp]
theorem runAll_cons (p : Phrase) (ps : List Phrase) : runAll before (p :: ps) = (do
      let v ← p.run before
      return v :: (← runAll v ps)) := rfl

def empty : Phrase := .node ⟨"empty", [], .skip⟩ []

/-- A phrase of a rule for the empty text, which is there for its step. -/
def mark (name : String) (step : Step) : Phrase := .node ⟨name, ["empty"], step⟩ [empty]

end Phrase

/-! ### Operators and levels -/

namespace Operator

/-- The word of an operator in quads. -/
def word : Operator → String
  | .and => "&"
  | .or => "|"
  | op => op.sign

/-- The level of an operator, the tightest first. -/
def level : Operator → Nat
  | .mul | .div | .mod => 1
  | .add | .sub => 2
  | .eq | .ne | .lt | .le | .gt | .ge => 3
  | .and | .or => 4

theorem ofWord?_word (op : Operator) : ofWord? op.word = some op := by
  cases op <;> decide

end Operator

/-- The symbols of a level of expressions, and the operators that are its. -/
structure Level where
  name : String
  /-- The mark after each operand. -/
  mark : String
  /-- What may follow an operand. -/
  tail : String
  words : List String

/-- The levels of expressions, the tightest first. -/
def Level.of : Nat → Level
  | 0 => ⟨"expr_mono", "", "", []⟩
  | 1 => ⟨"expr_factor", "found_expr_factor", "expr_factor2", ["*", "/", "%", "."]⟩
  | 2 => ⟨"expr_arith", "found_expr_arith", "expr_arith2", ["+", "-"]⟩
  | 3 => ⟨"expr_compare", "found_expr_compare", "expr_compare2",
      ["==", "!=", "<", "<=", ">", ">="]⟩
  | _ => ⟨"expr_logic", "found_expr_logic", "expr_logic2", ["&", "|"]⟩

namespace Dialect

def operatorSymbol : Dialect → Operator → String
  | .plain, .add => "'+'"
  | .plain, .sub => "'-'"
  | .plain, .mul => "'*'"
  | .plain, .div => "'/'"
  | .plain, .mod => "'%'"
  | .plain, .eq => "IS_EQUAL"
  | .plain, .ne => "IS_NOT_EQUAL"
  | .plain, .lt => "'<'"
  | .plain, .le => "LESS_THAN_OR_EQUAL"
  | .plain, .gt => "'>'"
  | .plain, .ge => "MORE_THAN_OR_EQUAL"
  | .plain, .and => "'&'"
  | .plain, .or => "'|'"
  | .goose, .add => "plus_op"
  | .goose, .sub => "minus_op"
  | .goose, .mul => "mul_op"
  | .goose, .div => "div_op"
  | .goose, .mod => "mod_op"
  | .goose, .eq => "eq_op"
  | .goose, .ne => "noeq_op"
  | .goose, .lt => "less_op"
  | .goose, .le => "lesseq_op"
  | .goose, .gt => "more_op"
  | .goose, .ge => "moreeq_op"
  | .goose, .and => "and_op"
  | .goose, .or => "or_op"

/-- The words of an operator in the goose dialect, with their symbols. -/
def operatorWords : Operator → List (String × String)
  | .add => [("MORE", "MORE"), ("GOOSE", "GOOSE")]
  | .sub => [("LESS", "LESS"), ("GOOSE", "GOOSE")]
  | .mul => [("GOOSETIPLY", "GOOSETIPLY")]
  | .div => [("GOOSIVIDE", "GOOSIVIDE")]
  | .mod => [("LEFTOVERS", "LEFTOVERS")]
  | .eq => [("AM", "AM"), ("GOOSE", "GOOSE"), ("'?'", "?")]
  | .ne => [("NOT", "NOT"), ("GOOSE", "GOOSE"), ("'?'", "?"), ("'!'", "!")]
  | .lt => [("INFERIOR", "INFERIOR")]
  | .le => [("INFERIOR", "INFERIOR"), ("MAYBE", "maybe")]
  | .gt => [("SUPERIOR", "SUPERIOR")]
  | .ge => [("SUPERIOR", "SUPERIOR"), ("MAYBE", "maybe")]
  | .and => [("TOGETHER", "TOGETHER"), ("FOREVER", "FOREVER")]
  | .or => [("POLE", "POLE")]

def tokens (words : List (String × String)) : List Phrase :=
  words.map fun w => .token w.1 (.text w.2)

/-- An operator: a token of the plain dialect, words of the goose dialect. -/
def operatorPhrase (d : Dialect) (op : Operator) : Phrase :=
  match d with
  | .plain => .token (d.operatorSymbol op) (.text op.word)
  | .goose => .node ⟨d.operatorSymbol op, (operatorWords op).map (·.1), .give op.word⟩
      (tokens (operatorWords op))

def operatorTokens (d : Dialect) (op : Operator) : List (String × Literal) :=
  match d with
  | .plain => [(d.operatorSymbol op, .text op.word)]
  | .goose => (operatorWords op).map fun w => (w.1, .text w.2)

/-- An opening and a closing parenthesis. -/
def parentheses : Dialect → List (String × Literal) × List (String × Literal)
  | .plain => ([("'('", .text "(")], [("')'", .text ")")])
  | .goose => ([("OPEN", .text "OPEN"), ("GATE", .text "GATE")],
      [("CLOSE", .text "CLOSE"), ("GATE", .text "GATE")])

/-- An expression in parentheses. -/
def groupPhrase (d : Dialect) (inner : Phrase) : Phrase :=
  match d with
  | .plain => .node ⟨"expr_group", ["'('", "found_expr_duo_op", "expr", "')'"], .closeGroup⟩
      [.token "'('" (.text "("), .mark "found_expr_duo_op" .pushOperator, inner,
        .token "')'" (.text ")")]
  | .goose => .node ⟨"expr_group", ["OPEN", "GATE", "found_expr_group", "found_expr_duo_op", "expr",
        "CLOSE", "GATE"], .closeGroup⟩
      [.token "OPEN" (.text "OPEN"), .token "GATE" (.text "GATE"),
        .mark "found_expr_group" (.give "("), .mark "found_expr_duo_op" .pushOperator, inner,
        .token "CLOSE" (.text "CLOSE"), .token "GATE" (.text "GATE")]

end Dialect

/-! ### Expressions as they are written -/

mutual

/-- An expression of a level. -/
inductive Formula : Nat → Type where
  | var (name : String) : Formula 0
  | int (i : Int) (h : Number.Short i) : Formula 0
  | truth (b : Bool) : Formula 0
  | group (e : Formula 4) : Formula 0
  | chain {n : Nat} (first : Formula n) (rest : Rest n) : Formula (n + 1)

/-- What follows the first operand of an expression: operators of the level with more
operands. -/
inductive Rest : Nat → Type where
  | stop {n : Nat} : Rest n
  | more {n : Nat} (op : Operator) (h : op.level = n + 1) (next : Formula n) (rest : Rest n) :
      Rest n

end

/-- An operand without parts. -/
inductive Leaf where
  | var (name : String)
  | int (i : Int) (h : Number.Short i)
  | truth (b : Bool)
deriving DecidableEq

/-- A tree of operations. -/
inductive Tree where
  | leaf (x : Leaf)
  | op (o : Operator) (l r : Tree)

mutual

/-- The operations of an expression. -/
def Formula.tree : {n : Nat} → Formula n → Tree
  | _, .var name => .leaf (.var name)
  | _, .int i h => .leaf (.int i h)
  | _, .truth b => .leaf (.truth b)
  | _, .group e => e.tree
  | _, .chain first rest => rest.tree first.tree

/-- Each operator takes all that is to its left. -/
def Rest.tree (l : Tree) : {n : Nat} → Rest n → Tree
  | _, .stop => l
  | _, .more op _ next rest => rest.tree (.op op l next.tree)

end

namespace Phrase

/-- An operand without operators for matrices after it. -/
def mono (inner : Phrase) : Phrase :=
  .node ⟨"expr_mono", ["expr_atom", "expr_mono_op"], .skip⟩
    [.node ⟨"expr_atom", [inner.symbol], .skip⟩ [inner], mark "expr_mono_op" .skip]

/-- A variable without indexes. -/
def ofVariable (name : String) : Phrase :=
  .node ⟨"expr_var", ["expr_var_name", "expr_var_dims"], .skip⟩
    [.node ⟨"expr_var_name", ["ID"], .pushVariable⟩ [.token "ID" (.text name)],
      mark "expr_var_dims" .skip]

def ofConstant (kind : String) (value : Literal) : Phrase :=
  .node ⟨"expr_var", [kind], .constant⟩ [.token kind value]

/-- An operand of a level with what follows it. -/
def chain (n : Nat) (first rest : Phrase) : Phrase :=
  let level := Level.of (n + 1)
  .node ⟨level.name, [(Level.of n).name, level.mark, level.tail], .skip⟩
    [first, mark level.mark (.operation level.words), rest]

/-- A whole expression. -/
def expr (e : Phrase) : Phrase := .node ⟨"expr", ["expr_logic"], .skip⟩ [e]

end Phrase

mutual

/-- The phrase of an expression. -/
def Formula.phrase (d : Dialect) : {n : Nat} → Formula n → Phrase
  | _, .var name => .mono (.ofVariable name)
  | _, .int i _ => .mono (.ofConstant "CTE_INT" (.int i))
  | _, .truth b => .mono (.ofConstant "CTE_BOOL" (.truth b))
  | _, .group e => .mono (d.groupPhrase (.expr (e.phrase d)))
  | _, .chain (n := n) first rest => .chain n (first.phrase d) (rest.phrase d)

/-- The phrase of what follows an operand. -/
def Rest.phrase (d : Dialect) : {n : Nat} → Rest n → Phrase
  | n, .stop => .mark (Level.of (n + 1)).tail .skip
  | n, .more op _ next rest =>
    .node ⟨(Level.of (n + 1)).tail, [d.operatorSymbol op, "found_expr_duo_op",
        (Level.of (n + 1)).name], .skip⟩
      [d.operatorPhrase op, .mark "found_expr_duo_op" .pushOperator,
        .chain n (next.phrase d) (rest.phrase d)]

end

mutual

/-- The tokens of an expression, operators between their operands. -/
def Formula.written (d : Dialect) : {n : Nat} → Formula n → List (String × Literal)
  | _, .var name => [("ID", .text name)]
  | _, .int i _ => [("CTE_INT", .int i)]
  | _, .truth b => [("CTE_BOOL", .truth b)]
  | _, .group e => d.parentheses.1 ++ e.written d ++ d.parentheses.2
  | _, .chain first rest => first.written d ++ rest.written d

/-- The tokens of what follows an operand. -/
def Rest.written (d : Dialect) : {n : Nat} → Rest n → List (String × Literal)
  | _, .stop => []
  | _, .more op _ next rest => d.operatorTokens op ++ next.written d ++ rest.written d

end

/-! ### Formulas are phrases of the grammars -/

namespace Phrase

variable {d : Dialect} {n : Nat} {inner : Phrase}

theorem mem_rules (d : Dialect) : ([⟨"empty", [], .skip⟩, ⟨"expr", ["expr_logic"], .skip⟩,
    ⟨"found_expr_duo_op", ["empty"], .pushOperator⟩,
    ⟨"expr_mono", ["expr_atom", "expr_mono_op"], .skip⟩, ⟨"expr_mono_op", ["empty"], .skip⟩,
    ⟨"expr_atom", ["expr_group"], .skip⟩, ⟨"expr_atom", ["expr_var"], .skip⟩,
    ⟨"expr_var", ["expr_var_name", "expr_var_dims"], .skip⟩,
    ⟨"expr_var_name", ["ID"], .pushVariable⟩, ⟨"expr_var_dims", ["empty"], .skip⟩,
    ⟨"expr_var", ["CTE_INT"], .constant⟩, ⟨"expr_var", ["CTE_BOOL"], .constant⟩] :
      List DialectRule) ⊆ d.rules := by
  cases d <;> decide +kernel

theorem mem_rules_level (d : Dialect) (hn : n < 4) :
    ([⟨(Level.of (n + 1)).name, [(Level.of n).name, (Level.of (n + 1)).mark, (Level.of (n + 1)).tail],
        .skip⟩,
      ⟨(Level.of (n + 1)).mark, ["empty"], .operation (Level.of (n + 1)).words⟩,
      ⟨(Level.of (n + 1)).tail, ["empty"], .skip⟩] : List DialectRule) ⊆ d.rules := by
  revert n
  cases d <;> decide +kernel

theorem mem_rules_operator (d : Dialect) (op : Operator) :
    (⟨(Level.of op.level).tail, [d.operatorSymbol op, "found_expr_duo_op", (Level.of op.level).name],
      .skip⟩ : DialectRule) ∈ d.rules := by
  -- all operators at once: the rules are gone through by the kernel
  have h : ∀ op ∈ [Operator.add, .sub, .mul, .div, .mod, .eq, .ne, .lt, .le, .gt, .ge, .and, .or],
      ∀ d ∈ [plain, .goose], (⟨(Level.of op.level).tail,
        [d.operatorSymbol op, "found_expr_duo_op", (Level.of op.level).name], .skip⟩ : DialectRule)
          ∈ d.rules := by
    decide +kernel
  exact h op (by cases op <;> simp) d (by cases d <;> simp)

theorem mem_rules_goose (op : Operator) :
    (⟨goose.operatorSymbol op, (operatorWords op).map (·.1), .give op.word⟩ :
      DialectRule) ∈ goose.rules := by
  have h : ∀ op ∈ [Operator.add, .sub, .mul, .div, .mod, .eq, .ne, .lt, .le, .gt, .ge, .and, .or],
      (⟨goose.operatorSymbol op, (operatorWords op).map (·.1), .give op.word⟩ :
        DialectRule) ∈ goose.rules := by
    decide +kernel
  exact h op (by cases op <;> simp)

theorem valid_mark {name : String} {step : Step} (h : ⟨name, ["empty"], step⟩ ∈ d.rules) :
    Valid d (mark name step) := by
  have hempty : Valid d empty := .node (mem_rules d (by simp)) rfl (by simp)
  exact .node h rfl (by simpa using hempty)

theorem valid_mono (h : Valid d inner)
    (hs : inner.symbol = "expr_var" ∨ inner.symbol = "expr_group") : Valid d (mono inner) := by
  have hatom : (⟨"expr_atom", [inner.symbol], .skip⟩ : DialectRule) ∈ d.rules := by
    rcases hs with hs | hs <;> rw [hs] <;> exact mem_rules d (by simp)
  refine .node (mem_rules d (by simp)) rfl ?_
  simp only [List.mem_cons, List.not_mem_nil, or_false, forall_eq_or_imp, forall_eq]
  exact ⟨.node hatom rfl (by simpa using h), valid_mark (mem_rules d (by simp))⟩

theorem valid_ofVariable (d : Dialect) (name : String) : Valid d (ofVariable name) := by
  refine .node (mem_rules d (by simp)) rfl ?_
  simp only [List.mem_cons, List.not_mem_nil, or_false, forall_eq_or_imp, forall_eq]
  refine ⟨.node (mem_rules d (by simp)) rfl ?_, valid_mark (mem_rules d (by simp))⟩
  simpa using .token _ _

theorem valid_ofConstant (d : Dialect) {kind : String} (hk : kind = "CTE_INT" ∨ kind = "CTE_BOOL")
    (value : Literal) : Valid d (ofConstant kind value) := by
  have hrule : (⟨"expr_var", [kind], .constant⟩ : DialectRule) ∈ d.rules := by
    rcases hk with rfl | rfl <;> exact mem_rules d (by simp)
  exact .node hrule rfl (by simpa using .token _ _)

theorem valid_expr {e : Phrase} (h : Valid d e) (hs : e.symbol = "expr_logic") :
    Valid d (expr e) :=
  .node (mem_rules d (by simp)) (by simp [hs]) (by simpa using h)

theorem valid_groupPhrase (h : Valid d inner) (hs : inner.symbol = "expr") :
    Valid d (d.groupPhrase inner) := by
  cases d with
  | plain =>
    refine .node ?_ (by simp [mark, hs]) ?_
    · unfold rules
      repeat first | exact List.mem_cons_self | apply List.mem_cons_of_mem
    · simp only [List.mem_cons, List.not_mem_nil, or_false, forall_eq_or_imp, forall_eq]
      exact ⟨.token _ _, valid_mark (mem_rules _ (by simp)), h, .token _ _⟩
  | goose =>
    refine .node ?_ (by simp [mark, hs]) ?_
    · unfold rules
      repeat first | exact List.mem_cons_self | apply List.mem_cons_of_mem
    · simp only [List.mem_cons, List.not_mem_nil, or_false, forall_eq_or_imp, forall_eq]
      refine ⟨.token _ _, .token _ _, valid_mark ?_, valid_mark (mem_rules _ (by simp)), h,
        .token _ _, .token _ _⟩
      unfold rules
      repeat first | exact List.mem_cons_self | apply List.mem_cons_of_mem

theorem valid_operatorPhrase (d : Dialect) (op : Operator) : Valid d (d.operatorPhrase op) := by
  cases d with
  | plain => exact .token _ _
  | goose =>
    refine .node (mem_rules_goose op) (by simp [tokens]) ?_
    simp only [tokens, List.mem_map, forall_exists_index, and_imp,
      forall_apply_eq_imp_iff₂]
    exact fun w _ => .token _ _

theorem symbol_operatorPhrase (d : Dialect) (op : Operator) :
    (d.operatorPhrase op).symbol = d.operatorSymbol op := by
  cases d <;> rfl

theorem valid_chain (hn : n < 4) {first rest : Phrase} (hf : Valid d first)
    (hfs : first.symbol = (Level.of n).name) (hr : Valid d rest)
    (hrs : rest.symbol = (Level.of (n + 1)).tail) : Valid d (chain n first rest) := by
  refine .node (mem_rules_level d hn (by simp)) (by simp [hfs, hrs, mark]) ?_
  simp only [List.mem_cons, List.not_mem_nil, or_false, forall_eq_or_imp, forall_eq]
  exact ⟨hf, valid_mark (mem_rules_level d hn (by simp)), hr⟩

end Phrase

open Phrase

mutual

/-- A formula of a level is a phrase of the level. -/
theorem Formula.valid_phrase (d : Dialect) : ∀ {n : Nat} (e : Formula n), n ≤ 4 →
    Valid d (e.phrase d) ∧ (e.phrase d).symbol = (Level.of n).name
  | _, .var name, _ => ⟨valid_mono (valid_ofVariable d name) (.inl rfl), rfl⟩
  | _, .int i _, _ => ⟨valid_mono (valid_ofConstant d (.inl rfl) _) (.inl rfl), rfl⟩
  | _, .truth b, _ => ⟨valid_mono (valid_ofConstant d (.inr rfl) _) (.inl rfl), rfl⟩
  | _, .group e, _ => by
    have he := Formula.valid_phrase d e (le_refl 4)
    refine ⟨valid_mono (valid_groupPhrase (valid_expr he.1 he.2) rfl) (.inr ?_), rfl⟩
    cases d <;> rfl
  | n + 1, .chain first rest, hn => by
    have hf := Formula.valid_phrase d first (by omega)
    have hr := Rest.valid_phrase d rest hn
    exact ⟨valid_chain hn hf.1 hf.2 hr.1 hr.2, rfl⟩

theorem Rest.valid_phrase (d : Dialect) : ∀ {n : Nat} (rest : Rest n), n < 4 →
    Valid d (rest.phrase d) ∧ (rest.phrase d).symbol = (Level.of (n + 1)).tail
  | n, .stop, hn => ⟨valid_mark (mem_rules_level d hn (by simp)), rfl⟩
  | n, .more op h next rest, hn => by
    have hnext := Formula.valid_phrase d next (by omega)
    have hrest := Rest.valid_phrase d rest hn
    refine ⟨.node (h ▸ mem_rules_operator d op) ?_ ?_, rfl⟩
    · simp only [List.map_cons, List.map_nil, symbol_operatorPhrase]
      rfl
    · simp only [List.mem_cons, List.not_mem_nil, or_false, forall_eq_or_imp, forall_eq]
      exact ⟨valid_operatorPhrase d op, valid_mark (mem_rules d (by simp)),
        valid_chain hn hnext.1 hnext.2 hrest.1 hrest.2⟩

end

namespace Phrase

variable (d : Dialect)

theorem yield_mark (name : String) (step : Step) : (mark name step).yield = [] := by
  simp [mark, empty]

theorem yieldAll_tokens (words : List (String × String)) :
    yieldAll (tokens words) = words.map fun w => (w.1, .text w.2) := by
  induction words with
  | nil => rfl
  | cons w words ih => simpa [tokens] using ih

theorem yield_operatorPhrase (op : Operator) :
    (d.operatorPhrase op).yield = d.operatorTokens op := by
  cases d with
  | plain => simp [operatorPhrase, operatorTokens]
  | goose => simp [operatorPhrase, operatorTokens, yieldAll_tokens]

theorem yield_groupPhrase (inner : Phrase) :
    (d.groupPhrase inner).yield = d.parentheses.1 ++ inner.yield ++ d.parentheses.2 := by
  cases d <;> simp [groupPhrase, parentheses, yield_mark]

end Phrase

mutual

/-- The tokens of the phrase of a formula are the formula as it is written. -/
theorem Formula.yield_phrase (d : Dialect) : ∀ {n : Nat} (e : Formula n),
    (e.phrase d).yield = e.written d
  | _, .var name => by
    simp [Formula.phrase, Formula.written, mono, ofVariable, yield_mark]
  | _, .int _ _ | _, .truth _ => by
    simp [Formula.phrase, Formula.written, mono, ofConstant, yield_mark]
  | _, .group e => by
    simp [Formula.phrase, Formula.written, mono, expr, yield_mark,
      yield_groupPhrase, Formula.yield_phrase d e]
  | _, .chain first rest => by
    simp [Formula.phrase, Formula.written, chain, yield_mark,
      Formula.yield_phrase d first, Rest.yield_phrase d rest]

theorem Rest.yield_phrase (d : Dialect) : ∀ {n : Nat} (rest : Rest n),
    (rest.phrase d).yield = rest.written d
  | _, .stop => by simp [Rest.phrase, Rest.written, yield_mark]
  | _, .more op h next rest => by
    simp [Rest.phrase, Rest.written, chain, yield_mark, yield_operatorPhrase,
      Formula.yield_phrase d next, Rest.yield_phrase d rest]

end

/-! ### What compiling does with them -/

namespace Compile

variable (before : Option Literal) (args : List (Option Literal))

@[simp]
theorem perform_skip : perform before args .skip = pure none := rfl

@[simp]
theorem perform_give (word : String) : perform before args (.give word) = pure (some (.text word)) :=
  rfl

@[simp]
theorem perform_operation (ops : List String) :
    perform before args (.operation ops) = (do addOperation ops; return none) := rfl

@[simp]
theorem perform_pushOperator :
    perform before args .pushOperator = (do pushOperator (wordOf before); return none) := rfl

@[simp]
theorem perform_closeGroup :
    perform before args .closeGroup = (do let _ ← popOperator; return none) := rfl

@[simp]
theorem perform_assign : perform before args .assign = (do addAssign; return none) := rfl

@[simp]
theorem perform_pushVariable : perform before args .pushVariable = (do
    let v ← variableOf (wordOf (args.headD none))
    setNamed (some v.name)
    pushVariable v
    return none) := rfl

@[simp]
theorem perform_constant (value : Literal) (rest : List (Option Literal)) :
    perform before (some value :: rest) .constant = (do
      pushConstant (← constant value (typeOfLiteral value))
      return none) := rfl

end Compile

namespace Phrase

variable (name : String) (d : Dialect) (before : Option Literal)

theorem run_mark (step : Step) :
    (mark name step).run before = Compile.perform before [none] step := by
  simp [mark, empty]

theorem run_mono (inner : Phrase) :
    (mono inner).run before = (do let _ ← inner.run before; return none) := by
  simp [mono, run_mark]

theorem run_expr (e : Phrase) :
    (expr e).run before = (do let _ ← e.run before; return none) := by
  simp [expr]

theorem run_ofVariable : (ofVariable name).run before = (do
      let v ← Compile.variableOf name
      Compile.setNamed (some v.name)
      Compile.pushVariable v
      return none) := by
  simp [ofVariable, run_mark, Compile.wordOf]

theorem run_ofConstant (kind : String) (value : Literal) :
    (ofConstant kind value).run before = (do
      Compile.pushConstant (← Compile.constant value (Compile.typeOfLiteral value))
      return none) := by
  simp [ofConstant]

theorem run_chain (n : Nat) (first rest : Phrase) :
    (chain n first rest).run before = (do
      let _ ← first.run before
      Compile.addOperation (Level.of (n + 1)).words
      let _ ← rest.run none
      return none) := by
  simp [chain, run_mark]

theorem runAll_tokens (words : List (String × String)) :
    ∃ args, runAll before (tokens words) = pure args := by
  induction words generalizing before with
  | nil => exact ⟨[], rfl⟩
  | cons w words ih =>
    obtain ⟨args, h⟩ := ih (some (.text w.2))
    rw [tokens] at h
    exact ⟨some (.text w.2) :: args, by simp [tokens, h]⟩

theorem run_operatorPhrase (op : Operator) :
    (d.operatorPhrase op).run before = pure (some (.text op.word)) := by
  cases d with
  | plain => simp [operatorPhrase]
  | goose =>
    obtain ⟨args, h⟩ := runAll_tokens before (operatorWords op)
    simp [operatorPhrase, h]

theorem run_groupPhrase (inner : Phrase) :
    (d.groupPhrase inner).run before = (do
      Compile.pushOperator "("
      let _ ← inner.run none
      let _ ← Compile.popOperator
      return none) := by
  cases d <;> simp [groupPhrase, run_mark, Compile.wordOf]

end Phrase

theorem Rest.run_phrase_stop (n : Nat) (before : Option Literal) :
    ((Rest.stop : Rest n).phrase d).run before = pure none := by
  simp [Rest.phrase, run_mark]

theorem Rest.run_phrase_more {n : Nat} (op : Operator) (h : op.level = n + 1) (next : Formula n)
    (rest : Rest n) (before : Option Literal) :
    ((Rest.more op h next rest).phrase d).run before = (do
      Compile.pushOperator op.word
      let _ ← (next.phrase d).run none
      Compile.addOperation (Level.of (n + 1)).words
      let _ ← (rest.phrase d).run none
      return none) := by
  simp [Rest.phrase, run_mark, run_operatorPhrase, run_chain, Compile.wordOf]

end QuadLang
